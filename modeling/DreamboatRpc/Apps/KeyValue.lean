import Mathlib.Logic.Function.Basic
import DreamboatRpc.CS.Dict
import DreamboatRpc.CS.Transition
import DreamboatRpc.Rpc.Codec

/-!
# The key-value store

Names are kept in five dictionaries with a lock each, and the id says in which: in runs of 2000
ids, the dictionaries take turns. A call computes the index of its dictionary, and does the rest
while it holds the lock. Division and remainder round towards zero, so most ids from -2000
downwards get a negative index.

## Main definitions

* `getAllottedBucket` — the index of the dictionary of an id
* `KVServiceBase.perform` — what a call does while it holds the lock
* `keyValueSystem` — the runs, where calls of any threads overlap
* `latest` — the name that was last set for an id
* `Conforms` — a step has a valid index, and returns what the latest names say

## Main results

* `inDicts_iff` — which ids have a dictionary
* `refines_map_iff` — a run refines a map if and only if all ids in it have one
* `bucket_outside` — the id -2000 has none
-/

namespace DreamboatRpc.Apps

open CS Rpc TransitionSystem

/-! ## The store -/

/-- `GetValueReq` -/
structure GetValueReq where
  id : Int32
  deriving DecidableEq

/-- `SetValueReq` -/
structure SetValueReq where
  id : Int32
  name : String
  deriving DecidableEq

/-- `SetValueRsp` -/
structure SetValueRsp where
  code : Int32
  deriving DecidableEq

/-- `NUM_NAME_DICTIONARY_BUCKETS` -/
def numNameDictionaryBuckets : ℕ := 5

/-- `getAllottedBucket(k)` -/
def getAllottedBucket (k : Int32) : Int32 := k / 2000 % 5

/-- The index of a dictionary. -/
def InDicts (index : Int32) : Prop :=
  0 ≤ index.toInt ∧ index.toInt < numNameDictionaryBuckets

instance (index : Int32) : Decidable (InDicts index) := inferInstanceAs (Decidable (_ ∧ _))

/-- `dicts[index]` and `dict_locks[index]`; `none` outside the arrays. -/
def bucketAt (index : Int32) : Option (Fin numNameDictionaryBuckets) :=
  if h : InDicts index then some ⟨index.toInt.toNat, by have := h.1; have := h.2; omega⟩ else none

/-- The dictionaries of `KVServiceBase`. -/
structure KVServiceBase where
  dicts : Fin numNameDictionaryBuckets → Dict Int32 String

/-- A call of `GetValueInternal` or `SetValueInternal`. -/
inductive Request
  | getValue (req : GetValueReq)
  | setValue (req : SetValueReq)
  deriving DecidableEq

/-- What it returns. -/
inductive Response
  | getValue (rsp : GetValueRsp)
  | setValue (rsp : SetValueRsp)
  deriving DecidableEq

/-- `req.id()` -/
def Request.id : Request → Int32
  | getValue req => req.id
  | setValue req => req.id

namespace KVServiceBase

variable (s : KVServiceBase) (b : Fin numNameDictionaryBuckets)

/-- Before any call. -/
def init : KVServiceBase := ⟨fun _ => ∅⟩

/-- `GetValueInternal`, with the lock of dictionary `b`. -/
def getValueInternal (req : GetValueReq) : GetValueRsp :=
  match (s.dicts b).get? req.id with
  | some name => ⟨name⟩
  | none => ⟨"not found"⟩

/-- `SetValueInternal`, with the lock of dictionary `b`. -/
def setValueInternal (req : SetValueReq) : KVServiceBase × SetValueRsp :=
  let stored := Function.update s.dicts b ((s.dicts b).set req.id req.name)
  match (s.dicts b).get? req.id with
  | some _ => (⟨stored⟩, ⟨1⟩)
  | none => (⟨stored⟩, ⟨2⟩)

/-- What a call does with the lock of dictionary `b`. -/
def perform : Request → KVServiceBase × Response
  | .getValue req => (s, .getValue (s.getValueInternal b req))
  | .setValue req => ((s.setValueInternal b req).1, .setValue (s.setValueInternal b req).2)

variable {s b}

theorem getValueInternal_eq (req : GetValueReq) :
    s.getValueInternal b req = ⟨((s.dicts b).get? req.id).getD "not found"⟩ := by
  rw [getValueInternal]
  cases (s.dicts b).get? req.id <;> rfl

/-- The name is stored, whether there was one or not; the code says which. -/
theorem setValueInternal_eq (req : SetValueReq) :
    s.setValueInternal b req =
      (⟨Function.update s.dicts b ((s.dicts b).set req.id req.name)⟩,
        ⟨if ((s.dicts b).get? req.id).isSome then 1 else 2⟩) := by
  rw [setValueInternal]
  split
  · rename_i name hname
    rw [hname]
    rfl
  · rename_i hname
    rw [hname]
    rfl

end KVServiceBase

/-! ## Calls of many threads -/

/-- The store, and the calls that have computed their index and wait for the lock. -/
structure System (τ : Type*) where
  base : KVServiceBase
  threads : τ → Option (Request × Int32)

/-- A thread begins a call, or it gets the lock, does the rest and returns. -/
inductive Action (τ : Type*)
  | start (t : τ) (request : Request)
  | finish (t : τ)

namespace System

variable {τ : Type*}

/-- Before any call. -/
def init : System τ := ⟨.init, fun _ => none⟩

variable [DecidableEq τ] (s : System τ)

/-- The state after an action; `none` if it cannot happen, or touches what is outside the
arrays. -/
def exec : Action τ → Option (System τ)
  | .start t request =>
    if s.threads t = none then
      some { s with
        threads := Function.update s.threads t (some (request, getAllottedBucket request.id)) }
    else none
  | .finish t =>
    (s.threads t).bind fun call =>
      (bucketAt call.2).map fun b =>
        ⟨(s.base.perform b call.1).1, Function.update s.threads t none⟩

omit [DecidableEq τ] in
/-- What the call of a thread returns when it gets the lock. -/
def response (t : τ) : Option Response :=
  (s.threads t).bind fun call =>
    (bucketAt call.2).map fun b => (s.base.perform b call.1).2

end System

/-- The runs of the store, with calls of any threads. -/
def keyValueSystem (τ : Type*) [DecidableEq τ] : TransitionSystem (System τ) (Action τ) :=
  .ofExec .init System.exec

/-! ## Which ids have a dictionary -/

/-- The id is not negative, or its quotient by 2000, rounded towards zero, is a multiple of
five. -/
def HasDict (id : Int32) : Prop := 0 ≤ id.toInt ∨ id.toInt.natAbs / 2000 % 5 = 0

instance (id : Int32) : Decidable (HasDict id) := inferInstanceAs (Decidable (_ ∨ _))

theorem toInt_getAllottedBucket (k : Int32) :
    (getAllottedBucket k).toInt = (k.toInt.tdiv 2000).tmod 5 := by
  have hdiv : (k / 2000).toInt = k.toInt.tdiv 2000 :=
    Int32.toInt_div_of_ne_right k 2000 (by decide)
  rw [getAllottedBucket, Int32.toInt_mod, hdiv]
  rfl

/-- These are the ids whose index is that of a dictionary. -/
theorem inDicts_iff (id : Int32) : InDicts (getAllottedBucket id) ↔ HasDict id := by
  rw [InDicts, HasDict, toInt_getAllottedBucket, numNameDictionaryBuckets]
  generalize id.toInt = i
  -- both operations round towards zero
  obtain ⟨n, rfl | rfl⟩ := Int.eq_nat_or_neg i
  · rw [show (2000 : ℤ) = (2000 : ℕ) from rfl, show (5 : ℤ) = (5 : ℕ) from rfl, ← Int.ofNat_tdiv,
      ← Int.ofNat_tmod]
    omega
  · rw [Int.neg_tdiv, Int.neg_tmod, show (2000 : ℤ) = (2000 : ℕ) from rfl,
      show (5 : ℤ) = (5 : ℕ) from rfl, ← Int.ofNat_tdiv, ← Int.ofNat_tmod]
    omega

/-! ## A map -/

/-- What a map from ids to names holds after a call. -/
def namesAfter (names : Int32 → Option String) : Request → Int32 → Option String
  | .getValue _ => names
  | .setValue req => Function.update names req.id (some req.name)

/-- What a call returns if the names are kept in a map. -/
def expected (names : Int32 → Option String) : Request → Response
  | .getValue req => .getValue ⟨(names req.id).getD "not found"⟩
  | .setValue req => .setValue ⟨if (names req.id).isSome then 1 else 2⟩

section Map

variable {τ : Type*} {history : List (Transition (System τ) (Action τ))} {s t : System τ}
  {a : Action τ}

/-- The call that got its lock in a step. -/
def performed (x : Transition (System τ) (Action τ)) : Option Request :=
  match x.event with
  | .start _ _ => none
  | .finish t => (x.source.threads t).map Prod.fst

/-- The names after the calls of a run, in the order in which they got their locks. -/
def latest : List (Transition (System τ) (Action τ)) → Int32 → Option String
  | [] => fun _ => none
  | x :: earlier =>
    match performed x with
    | none => latest earlier
    | some request => namesAfter (latest earlier) request

/-- The last step computed the index of a dictionary, or returned what the names before it
say. -/
def Conforms : List (Transition (System τ) (Action τ)) → Prop
  | [] => True
  | x :: earlier =>
    match x.event with
    | .start _ request => InDicts (getAllottedBucket request.id)
    | .finish t => ∀ call, x.source.threads t = some call →
        x.source.response t = some (expected (latest earlier) call.1)

/-- A call that begins has an id that has a dictionary. -/
def StartsInside (_ : System τ) : Action τ → Prop
  | .start _ request => HasDict request.id
  | .finish _ => True

instance (s : System τ) (a : Action τ) : Decidable (StartsInside s a) :=
  match a with
  | .start _ request => inferInstanceAs (Decidable (HasDict request.id))
  | .finish _ => .isTrue trivial

/-- Each call holds the index of its own id, and each dictionary the names of its own ids. -/
structure Sharded (history : List (Transition (System τ) (Action τ))) (s : System τ) : Prop where
  index : ∀ t call, s.threads t = some call → call.2 = getAllottedBucket call.1.id
  names : ∀ id b, bucketAt (getAllottedBucket id) = some b →
    (s.base.dicts b).get? id = latest history id

/-- A call returns what the map says. -/
theorem perform_eq {base : KVServiceBase} {names : Int32 → Option String} {request : Request}
    {b : Fin numNameDictionaryBuckets} (h : (base.dicts b).get? request.id = names request.id) :
    (base.perform b request).2 = expected names request := by
  cases request with
  | getValue req =>
    have hname : (base.dicts b).get? req.id = names req.id := h
    rw [KVServiceBase.perform, KVServiceBase.getValueInternal_eq, expected, hname]
  | setValue req =>
    have hname : (base.dicts b).get? req.id = names req.id := h
    rw [KVServiceBase.perform, KVServiceBase.setValueInternal_eq, expected, hname]

/-- A name is stored in the dictionary of its id, and there under its id only. -/
theorem get?_perform {base : KVServiceBase} {names : Int32 → Option String} {request : Request}
    {b c : Fin numNameDictionaryBuckets} {id : Int32}
    (hb : bucketAt (getAllottedBucket request.id) = some b)
    (hc : bucketAt (getAllottedBucket id) = some c) (h : (base.dicts c).get? id = names id) :
    ((base.perform b request).1.dicts c).get? id = namesAfter names request id := by
  cases request with
  | getValue req => exact h
  | setValue req =>
    have hb' : bucketAt (getAllottedBucket req.id) = some b := hb
    simp only [KVServiceBase.perform, KVServiceBase.setValueInternal_eq, namesAfter]
    by_cases hid : id = req.id
    · subst hid
      cases hb'.symm.trans hc
      simp
    · rw [Function.update_of_ne hid]
      by_cases hcb : c = b
      · subst hcb
        rwa [Function.update_self, Dict.get?_set_of_ne hid]
      · rwa [Function.update_of_ne hcb]

theorem sharded_init : Sharded [] (System.init : System τ) where
  index _ _ h := by cases h
  names _ _ _ := rfl

variable [DecidableEq τ]

theorem Sharded.exec (h : Sharded history s) (hexec : s.exec a = some t) :
    Sharded (⟨s, a, t⟩ :: history) t := by
  cases a with
  | start u request =>
    simp only [System.exec] at hexec
    split at hexec
    · cases hexec
      refine ⟨fun v call hv => ?_, h.names⟩
      simp only [Function.update_apply] at hv
      split at hv
      · cases hv
        rfl
      · exact h.index v call hv
    · cases hexec
  | finish u =>
    obtain ⟨call, hcall, hfinish⟩ := Option.bind_eq_some_iff.mp hexec
    obtain ⟨b, hb, rfl⟩ := Option.map_eq_some_iff.mp hfinish
    refine ⟨fun v call' hv => ?_, fun id c hc => ?_⟩
    · simp only [Function.update_apply] at hv
      split at hv
      · cases hv
      · exact h.index v call' hv
    · rw [h.index u call hcall] at hb
      simp only [latest, performed, hcall, Option.map_some]
      exact get?_perform hb hc (h.names id c hc)

/-- A step conforms unless it begins a call of an id that has no dictionary. -/
theorem Sharded.conforms_iff (h : Sharded history s) (hexec : s.exec a = some t) :
    Conforms (⟨s, a, t⟩ :: history) ↔ StartsInside s a := by
  cases a with
  | start u request => exact inDicts_iff request.id
  | finish u =>
    obtain ⟨call, hcall, hfinish⟩ := Option.bind_eq_some_iff.mp hexec
    obtain ⟨b, hb, rfl⟩ := Option.map_eq_some_iff.mp hfinish
    refine iff_of_true (fun call' hcall' => ?_) trivial
    obtain rfl : call' = call := Option.some.inj (hcall'.symm.trans hcall)
    have hbucket := hb
    rw [h.index u call' hcall] at hbucket
    rw [System.response, hcall]
    simp only [Option.bind_some, hb, Option.map_some]
    rw [perform_eq (h.names _ b hbucket)]

/-- In every run, each index is that of a dictionary, and each call returns what a map from ids
to names returns after the calls before it, if and only if every call that begins has an id that
has a dictionary. -/
theorem refines_map_iff (hrun : (keyValueSystem τ).Run unguarded history s) :
    (∀ earlier t, (keyValueSystem τ).Run unguarded earlier t → earlier <:+ history →
      Conforms earlier) ↔ ∀ x ∈ history, StartsInside x.source x.event := by
  refine hrun.histories_iff (I := fun history _ => Conforms history) (fun _ _ => trivial) ?_
  intro history s a t hrun _ hstep
  have hsharded : Sharded history s := by
    refine hrun.invariant ?_ ?_
    · rintro _ rfl
      exact sharded_init
    · intro _ _ _ _ h _ hexec
      exact h.exec hexec
  exact hsharded.conforms_iff hstep

/-- Thread 0 stores a name for the id 4000 while thread 1 begins to read it. -/
def storesAndReads : List (Action ℕ) :=
  [.start 0 (.setValue ⟨4000, "ada"⟩), .start 1 (.getValue ⟨4000⟩), .finish 0, .finish 1]

theorem refines_map_iff_storesAndReads :
    ∃ (history : List (Transition (System ℕ) (Action ℕ))) (s : System ℕ),
      (keyValueSystem ℕ).Run unguarded history s ∧ Conforms history ∧
        latest history 4000 = some "ada" := by
  have hreplay : (replay System.exec (fun _ _ => true) [] (System.init : System ℕ)
      storesAndReads).any (fun r => decide (latest r.1 4000 = some "ada" ∧
        ∀ x ∈ r.1, StartsInside x.source x.event)) = true := by decide +kernel
  obtain ⟨history, s, hrun, htest⟩ := exists_run_of_replay (fun history _ =>
    decide (latest history 4000 = some "ada" ∧
      ∀ x ∈ history, StartsInside x.source x.event)) hreplay
  obtain ⟨hlatest, hinside⟩ := of_decide_eq_true htest
  have hrun' : (keyValueSystem ℕ).Run unguarded history s := hrun.mono fun _ _ _ => trivial
  exact ⟨history, s, hrun',
    (refines_map_iff hrun').mpr hinside history s hrun' List.suffix_rfl, hlatest⟩

/-- The index of the id -2000 is -1. -/
theorem bucket_outside : ∃ (history : List (Transition (System ℕ) (Action ℕ))) (s : System ℕ),
    (keyValueSystem ℕ).Run unguarded history s ∧ ¬ Conforms history := by
  have hstart : (System.init : System ℕ).exec (.start 0 (.getValue ⟨-2000⟩)) = some _ := rfl
  refine ⟨_, _, (Run.init rfl).step trivial hstart, ?_⟩
  change ¬ InDicts (getAllottedBucket (-2000))
  decide

end Map

end DreamboatRpc.Apps
