import DreamboatRpc.Raft.ElectionSafety
import DreamboatRpc.Raft.LogWrites

/-!
# Looking up an entry by its id

`check_committed_entry` with an id answers from `log_hash`, which is written whenever an
entry is appended to the log and never when one is committed or cut off. So it answers with
the entry of that id the node has appended last, wherever that is now; the entry every log
starts with is not in it. That is the right answer if the last append of the id that is not
beyond the commit index, and has not been cut off since, has appended the same entry.

## Main definitions

* `Node.LastCommitted` — an answer is the last committed entry with an id
* `written` — what the thread of a node has written in a run
* `lastAppended` — the entry with an id that was appended last
* `lastStanding` — the entry with an id that was appended last of those that are not beyond the
  commit index and were not cut off since

## Main results

* `Shows.of_run` — what the HTTP threads read of a node is what has been written
* `lookup_committed_iff` — when the lookup answers with the last committed entry
-/

namespace DreamboatRpc.Raft

open CS

variable {n : ℕ} {V : Type*}

/-- The entry is committed, and no entry behind it that is committed has the id. -/
def Node.StandsCommitted (nd : Node n V) (idNum : ℤ) (entry : Entry V) : Prop :=
  ∃ i ≤ nd.commitIndex, nd.log[i]? = some entry ∧
    ∀ j, i < j → j ≤ nd.commitIndex → ∀ later, nd.log[j]? = some later → later.id ≠ idNum

/-- The answer is the entry with the id at the greatest index that is committed, and there is
no answer exactly if no committed entry has the id. -/
structure Node.LastCommitted (nd : Node n V) (idNum : ℤ) (answer : Option (Entry V)) : Prop where
  found : ∀ entry, answer = some entry → entry.id = idNum ∧ nd.StandsCommitted idNum entry
  missing : answer = none ↔
    ∀ i ≤ nd.commitIndex, ∀ entry, nd.log[i]? = some entry → entry.id ≠ idNum

/-! ## What was written -/

section Writes

variable (idNum : ℤ)

/-- What the thread of a node has written in a run, the latest first. -/
def written [EmptyCollection V] (history : List (Step n V)) (p : Fin n) : List (LogWrite V) :=
  history.flatMap fun x => (x.source.logWrites p x.event).reverse

/-- The entry with the id that was appended last. -/
def lastAppended : List (LogWrite V) → Option (Entry V)
  | [] => none
  | .append entry :: earlier => if entry.id = idNum then some entry else lastAppended earlier
  | .cut _ :: earlier | .commit _ :: earlier => lastAppended earlier

/-- The index that was committed last. -/
def lastCommit : List (LogWrite V) → ℕ
  | [] => 0
  | .commit index :: _ => index
  | .cut _ :: earlier | .append _ :: earlier => lastCommit earlier

/-- The index of the next append. -/
def nextAppend : List (LogWrite V) → ℕ
  | [] => 1
  | .cut prevIndex :: earlier => min (prevIndex + 1) (nextAppend earlier)
  | .append _ :: earlier => nextAppend earlier + 1
  | .commit _ :: earlier => nextAppend earlier

/-- The entry with the id that was appended last, of those that were appended up to the index
`limit` and were not cut off since. The entry every log starts with is the first of them. -/
def lastStanding [EmptyCollection V] : ℕ → List (LogWrite V) → Option (Entry V)
  | _, [] => if idNum = -1 then some Node.initialEntry else none
  | limit, .cut prevIndex :: earlier => lastStanding (min limit prevIndex) earlier
  | limit, .append entry :: earlier =>
    if nextAppend earlier ≤ limit ∧ entry.id = idNum then some entry
    else lastStanding limit earlier
  | limit, .commit _ :: earlier => lastStanding limit earlier

/-- The last append of the id, and the last one that is committed and was not cut off since,
have appended the same entry; or there was no append of the id, and it is not that of the entry
every log starts with. -/
def latestCommitted [EmptyCollection V] (writes : List (LogWrite V)) : Prop :=
  match lastAppended idNum writes with
  | none => idNum ≠ -1
  | some entry => lastStanding idNum (lastCommit writes) writes = some entry

instance [EmptyCollection V] [DecidableEq V] (writes : List (LogWrite V)) :
    Decidable (latestCommitted idNum writes) := by
  unfold latestCommitted
  split <;> infer_instance

end Writes

section Lookup

variable {nd nd' : Node n V} {idNum : ℤ} {entry : Entry V} {writes : List (LogWrite V)}

/-- Where the id was never appended, only the first entry can have it. -/
theorem lastStanding_of_lastAppended_none [EmptyCollection V] (limit : ℕ)
    (h : lastAppended idNum writes = none) : lastStanding idNum limit writes =
      if idNum = -1 then some Node.initialEntry else none := by
  induction writes generalizing limit with
  | nil => rfl
  | cons w writes ih =>
    cases w with
    | append e =>
      rw [lastAppended] at h
      split at h
      · cases h
      · rename_i hid
        rw [lastStanding, if_neg fun hboth => hid hboth.2]
        exact ih limit h
    | cut prevIndex => exact ih _ h
    | commit index => exact ih limit h

/-- The last committed entry with the id, if there is one. -/
def Node.lastCommitted (nd : Node n V) (idNum : ℤ) : Option (Entry V) :=
  (nd.log.take (nd.commitIndex + 1)).reverse.find? fun entry => entry.id == idNum

/-- An index is committed and in the log. -/
theorem getElem?_take_commitIndex {i : ℕ} :
    (nd.log.take (nd.commitIndex + 1))[i]? = some entry ↔
      i ≤ nd.commitIndex ∧ nd.log[i]? = some entry := by
  rw [List.getElem?_take]
  split
  · rename_i hlt
    simp [Nat.le_of_lt_succ hlt]
  · rename_i hge
    have hgt : ¬ i ≤ nd.commitIndex := by omega
    simp [hgt]

theorem lastCommitted_eq_none_iff : nd.lastCommitted idNum = none ↔
    ∀ i ≤ nd.commitIndex, ∀ entry, nd.log[i]? = some entry → entry.id ≠ idNum := by
  simp only [Node.lastCommitted, List.find?_eq_none, List.mem_reverse, beq_iff_eq]
  constructor
  · intro h i hi entry hentry
    exact h entry (List.mem_of_getElem? (getElem?_take_commitIndex.mpr ⟨hi, hentry⟩))
  · intro h entry hmem
    obtain ⟨i, hin⟩ := List.mem_iff_getElem?.mp hmem
    obtain ⟨hi, hentry⟩ := getElem?_take_commitIndex.mp hin
    exact h i hi entry hentry

theorem lastCommitted_eq_some_iff : nd.lastCommitted idNum = some entry ↔
    entry.id = idNum ∧ nd.StandsCommitted idNum entry := by
  set committed := nd.log.take (nd.commitIndex + 1) with hcommitted
  have hfind : nd.lastCommitted idNum = some entry ↔ entry.id = idNum ∧
      ∃ front back, committed = front ++ entry :: back ∧ ∀ later ∈ back, later.id ≠ idNum := by
    rw [Node.lastCommitted, List.find?_eq_some_iff_append, beq_iff_eq]
    refine and_congr_right fun _ => ⟨?_, ?_⟩
    · rintro ⟨as, bs, hlist, has⟩
      refine ⟨bs.reverse, as.reverse, ?_, fun later hlater => ?_⟩
      · rw [← List.reverse_reverse committed, hlist]
        simp
      · simpa using has later (List.mem_reverse.mp hlater)
    · rintro ⟨front, back, hlist, hback⟩
      refine ⟨back.reverse, front.reverse, ?_, fun later hlater => ?_⟩
      · rw [← hcommitted, hlist]
        simp
      simpa using hback later (List.mem_reverse.mp hlater)
  rw [hfind]
  refine and_congr_right fun _ => ⟨?_, ?_⟩
  · rintro ⟨front, back, hlist, hback⟩
    have hat : ∀ j e, committed[j]? = some e ↔ j ≤ nd.commitIndex ∧ nd.log[j]? = some e :=
      fun j e => getElem?_take_commitIndex
    obtain ⟨hi, hentry⟩ := (hat front.length entry).mp (by rw [hlist]; simp)
    refine ⟨front.length, hi, hentry, fun j hj hle later hlater => hback later ?_⟩
    have hin := (hat j later).mpr ⟨hle, hlater⟩
    rw [hlist, List.getElem?_append_right hj.le, List.getElem?_cons] at hin
    split at hin
    · omega
    · exact List.mem_of_getElem? hin
  · rintro ⟨i, hi, hentry, hlast⟩
    have hin : committed[i]? = some entry := getElem?_take_commitIndex.mpr ⟨hi, hentry⟩
    obtain ⟨hlt, hget⟩ := List.getElem?_eq_some_iff.mp hin
    refine ⟨committed.take i, committed.drop (i + 1), ?_, fun later hlater => ?_⟩
    · rw [← hget, List.getElem_cons_drop, List.take_append_drop]
    · obtain ⟨j, hj⟩ := List.mem_iff_getElem?.mp hlater
      rw [List.getElem?_drop] at hj
      obtain ⟨hle, hget⟩ := getElem?_take_commitIndex.mp hj
      exact hlast _ (by omega) hle later hget

/-- There is one right answer. -/
theorem lastCommitted_iff {answer : Option (Entry V)} :
    nd.LastCommitted idNum answer ↔ nd.lastCommitted idNum = answer := by
  constructor
  · intro h
    cases answer with
    | none => exact lastCommitted_eq_none_iff.mpr (h.missing.mp rfl)
    | some entry => exact lastCommitted_eq_some_iff.mpr (h.found entry rfl)
  · rintro rfl
    exact ⟨fun entry => lastCommitted_eq_some_iff.mp, lastCommitted_eq_none_iff⟩

end Lookup

/-! ## Runs -/

section Runs

variable [EmptyCollection V] {s s' : Cluster n V} {e : Event n V} {history : List (Step n V)}
  {nd nd' : Node n V} {writes : List (LogWrite V)}

/-- What the HTTP threads read of a node is what has been written, the latest write first. -/
structure Shows (writes : List (LogWrite V)) (nd : Node n V) : Prop where
  length : nd.log.length = nextAppend writes
  commitIndex : nd.commitIndex = lastCommit writes
  lookup : ∀ idNum, nd.checkCommittedEntryById idNum = lastAppended idNum writes
  standing : ∀ idNum limit, (nd.log.take (limit + 1)).reverse.find? (fun entry =>
    entry.id == idNum) = lastStanding idNum limit writes

namespace Shows

theorem init (p : Fin n) : Shows [] (Node.init p : Node n V) where
  length := rfl
  commitIndex := rfl
  lookup _ := rfl
  standing idNum limit := by
    simp only [Node.init, List.take_succ_cons, List.take_nil, List.reverse_singleton,
      List.find?_singleton, lastStanding, beq_iff_eq]
    simp only [Node.initialEntry, eq_comm]

theorem congr (h : Shows writes nd) (hsame : nd.ReadsAs nd') : Shows writes nd' where
  length := by rw [hsame.log, h.length]
  commitIndex := by rw [hsame.commitIndex, h.commitIndex]
  lookup idNum := by
    rw [← h.lookup idNum, Node.checkCommittedEntryById, hsame.logHash, Node.checkCommittedEntryById]
  standing idNum limit := by rw [hsame.log, h.standing]

theorem write (h : Shows writes nd) (w : LogWrite V) : Shows (w :: writes) (nd.write w) := by
  cases w with
  | cut prevIndex =>
    refine ⟨?_, h.commitIndex, h.lookup, fun idNum limit => ?_⟩
    · rw [Node.write, List.length_take, h.length, nextAppend]
    -- what stood behind the cut is out of reach of any limit
    · rw [lastStanding, ← h.standing, Node.write, List.take_take]
      congr 3
      omega
  | append entry =>
    refine ⟨?_, h.commitIndex, fun idNum => ?_, fun idNum limit => ?_⟩
    · simp only [Node.write, List.length_append, List.length_singleton, h.length, nextAppend]
    · rw [lastAppended, ← h.lookup, Node.checkCommittedEntryById, Node.write, List.lookup_cons,
        Node.checkCommittedEntryById]
      by_cases hid : entry.id = idNum
      · simp [hid]
      · have hne : (idNum == entry.id) = false := by simpa using Ne.symm hid
        simp only [hne, if_neg hid]
    · rw [lastStanding, ← h.standing, ← h.length, Node.write]
      -- the entry is looked at first, if it is not beyond the limit
      by_cases hlimit : nd.log.length ≤ limit
      · have hall : (nd.log ++ [entry]).take (limit + 1) = nd.log ++ [entry] :=
          List.take_of_length_le (by simpa using hlimit)
        have hbefore : nd.log.take (limit + 1) = nd.log :=
          List.take_of_length_le (by omega)
        rw [hall, hbefore, List.reverse_append, List.reverse_singleton, List.singleton_append,
          List.find?_cons]
        by_cases hid : entry.id = idNum
        · simp [hid, hlimit]
        · have hne : (entry.id == idNum) = false := by simpa using hid
          simp [hne, hid]
      · rw [if_neg fun hboth => hlimit hboth.1, List.take_append_of_le_length (by omega)]
  | commit index => exact ⟨h.length, rfl, h.lookup, h.standing⟩

theorem writeAll (h : Shows writes nd) (later : List (LogWrite V)) :
    Shows (later.reverse ++ writes) (nd.writeAll later) := by
  induction later generalizing nd writes with
  | nil => exact h
  | cons w later ih =>
    rw [List.reverse_cons, List.append_assoc]
    exact ih (h.write w)

/-- Every node has written what its thread has written in the run. -/
theorem of_run (hrun : (clusterSystem n V).Run unguarded history s) (p : Fin n) :
    Shows (written history p) (s.nodes p) := by
  have hinv : (s.Ready ∧ s.Sendable) ∧ Shows (written history p) (s.nodes p) := by
    refine hrun.invariant
      (I := fun history s => (s.Ready ∧ s.Sendable) ∧ Shows (written history p) (s.nodes p))
      ?_ ?_
    · rintro _ rfl
      exact ⟨⟨Cluster.ready_init, fun q hlead => by simp [Cluster.init, Node.init] at hlead⟩,
        .init p⟩
    · rintro history s e s' ⟨⟨hready, hsend⟩, hwritten⟩ - hs
      refine ⟨⟨hready.exec hs, hsend.exec hready hs⟩, ?_⟩
      exact (hwritten.writeAll (s.logWrites p e)).congr (Cluster.exec_logWrites hsend hs p)
  exact hinv.2

/-- The lookup answers with the last committed entry iff the writes are so. -/
theorem lookup_iff (h : Shows writes nd) (idNum : ℤ) :
    nd.LastCommitted idNum (nd.checkCommittedEntryById idNum) ↔ latestCommitted idNum writes := by
  have hlast : nd.lastCommitted idNum = lastStanding idNum (lastCommit writes) writes := by
    rw [Node.lastCommitted, h.standing, h.commitIndex]
  rw [lastCommitted_iff, hlast, h.lookup, latestCommitted]
  cases happended : lastAppended idNum writes with
  | some entry => rfl
  -- no append: only the first entry, which `log_hash` does not hold
  | none =>
    rw [lastStanding_of_lastAppended_none _ happended]
    split <;> simp_all

end Shows

/-- In every state of a run, after each of the writes of the next event, and for every id: the
lookup answers with the last committed entry that has the id, or with none if there is none, iff
the last append of the id has appended the same entry as the last one that is committed and was
not cut off since, or there was none and the id is not that of the first entry. -/
theorem lookup_committed_iff (hrun : (clusterSystem n V).Run unguarded history s) (p : Fin n)
    (e : Event n V) (idNum : ℤ) : ∀ done, done <+: s.logWrites p e →
      (((s.nodes p).writeAll done).LastCommitted idNum
          (((s.nodes p).writeAll done).checkCommittedEntryById idNum) ↔
        latestCommitted idNum (done.reverse ++ written history p)) :=
  fun done _ => ((Shows.of_run hrun p).writeAll done).lookup_iff idNum

end Runs

/-- Node `1` has followed the leader, and is about to accept a second entry. -/
def followsSecond : List (Event 2 (List ℕ)) := wonElection ++
  [.run 0, .follower 1 (some 0) false, .follower 1 (some 0) false,
    .leader 0 false (fun _ => false) (some 1), .clientRequest 0 [7] 5,
    .leader 0 false (fun _ => false) none, .follower 1 (some 0) false]

/-- What node `1` writes when it accepts the second entry. -/
def secondWrites : List (LogWrite (List ℕ)) := [.cut 1, .append ⟨2, [7], 5⟩]

/-- The entry of id `-1` that node `1` appended last is committed, also after these writes. -/
def findsBehind (history : List (Step 2 (List ℕ))) (s : Cluster 2 (List ℕ)) : Bool :=
  decide (s.logWrites 1 (.follower 1 (some 0) false) = secondWrites ∧
    (s.nodes 1).checkCommittedEntryById (-1) = some ⟨2, [], -1⟩ ∧
    latestCommitted (-1) (secondWrites.reverse ++ written history 1))

theorem lookup_committed_iff_followsSecond :
    ∃ s : Cluster 2 (List ℕ), (s.nodes 1).checkCommittedEntryById (-1) = some ⟨2, [], -1⟩ ∧
      ((s.nodes 1).writeAll secondWrites).LastCommitted (-1)
        (((s.nodes 1).writeAll secondWrites).checkCommittedEntryById (-1)) := by
  have hreplay : (replay Cluster.exec (fun _ _ => true) [] Cluster.init followsSecond).any
      (fun r => findsBehind r.1 r.2) = true := by decide
  obtain ⟨history, s, hrun, htest⟩ := exists_run_of_replay findsBehind hreplay
  obtain ⟨hwrites, hanswer, hlatest⟩ := of_decide_eq_true htest
  refine ⟨s, hanswer, (lookup_committed_iff (hrun.mono fun _ _ _ => trivial) 1
    (.follower 1 (some 0) false) (-1) secondWrites ?_).mpr hlatest⟩
  rw [hwrites]

/-- Node `0` has committed no entry of id `5`, and the lookup answers with one. -/
def findsUncommitted (s : Cluster 2 (List ℕ)) : Bool :=
  decide ((s.nodes 0).checkCommittedEntryById 5 = some ⟨2, [7], 5⟩ ∧ (s.nodes 0).commitIndex = 0 ∧
    (s.nodes 0).log[0]? = some Node.initialEntry)

/-- The lookup answers with an entry that has been appended and not committed. -/
theorem lookup_uncommitted :
    ¬ ∀ (n : ℕ) (s : Cluster n (List ℕ)), (clusterSystem n (List ℕ)).Reachable unguarded s →
      ∀ p idNum, (s.nodes p).LastCommitted idNum ((s.nodes p).checkCommittedEntryById idNum) := by
  intro hcommitted
  have hreplay : (replay Cluster.exec (fun _ _ => true) [] Cluster.init
      (wonElection ++ [.run 0, .clientRequest 0 [7] 5, .leader 0 false (fun _ => false) none])).any
      (fun r => findsUncommitted r.2) = true := by decide
  obtain ⟨history, s, hrun, htest⟩ :=
    exists_run_of_replay (fun _ s => findsUncommitted s) hreplay
  obtain ⟨hanswer, hcommit, hfirst⟩ := of_decide_eq_true htest
  obtain ⟨-, i, hi, hentry, -⟩ :=
    (hcommitted 2 s ⟨history, hrun.mono fun _ _ _ => trivial⟩ 0 5).found _ hanswer
  obtain rfl : i = 0 := by omega
  rw [hfirst] at hentry
  exact absurd hentry (by decide)

end DreamboatRpc.Raft
