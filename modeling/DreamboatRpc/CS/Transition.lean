import Mathlib.Data.Nat.Notation
import Mathlib.Logic.Relation

/-!
# Runs of a labelled transition system

A run is kept together with its history, so that a statement can speak of two
steps of one run at once. A run may be restricted by a guard, a condition on the
state a step leaves and the event it takes; the unrestricted runs are those of
the guard that always holds.

## Main definitions

* `TransitionSystem` — initial states and a labelled step relation
* `TransitionSystem.Run` — the runs whose steps all meet a guard, with history
* `TransitionSystem.Reachable` — the states such runs reach
* `TransitionSystem.LeadsTo` — the states such steps lead to from a given one
* `TransitionSystem.ofExec` — the system of a partial, deterministic step function
* `replay` — executes a list of events and collects the history

## Main results

* `Reachable.invariant`, `Run.invariant` — a property that every guarded step
  preserves holds in every state, respectively along every run
* `Reachable.ghost` — the same with auxiliary variables chosen step by step
* `Run.targets_iff`, `Run.transitions_iff`, `Run.histories_iff` — a run keeps a property of
  states, respectively of steps or histories, iff all its steps meet the condition under which one
  step does
* `Run.suffixes_iff` — a condition on states can be asked of what happened before instead
* `run_of_replay` — an executed event list is a run
-/

namespace CS

/-- A labelled transition system: the states a run may start from, and the
states an event may lead to. -/
structure TransitionSystem (σ ε : Type*) where
  init : σ → Prop
  step : σ → ε → σ → Prop

/-- One step of a run: the state it leaves, its event, the state it enters. -/
structure Transition (σ ε : Type*) where
  source : σ
  event : ε
  target : σ

/-- The guard that every step meets. -/
def unguarded {σ ε : Type*} : σ → ε → Prop := fun _ _ => True

namespace TransitionSystem

variable {σ ε γ : Type*} (T : TransitionSystem σ ε) {G G' : σ → ε → Prop}
  {history : List (Transition σ ε)} {s : σ}

/-- `T.Run G history s`: some run of `T` whose steps all meet the guard `G` took
the steps of `history`, latest first, and is now in state `s`. -/
inductive Run (G : σ → ε → Prop) : List (Transition σ ε) → σ → Prop
  | init {s : σ} : T.init s → Run G [] s
  | step {history : List (Transition σ ε)} {s t : σ} {e : ε} :
      Run G history s → G s e → T.step s e t → Run G (⟨s, e, t⟩ :: history) t

/-- The states that runs meeting the guard `G` reach. -/
def Reachable (G : σ → ε → Prop) (s : σ) : Prop := ∃ history, T.Run G history s

variable {T}

/-- A property of history and state that holds initially and is preserved by
every guarded step holds along every guarded run. -/
theorem Run.invariant {I : List (Transition σ ε) → σ → Prop}
    (hinit : ∀ s, T.init s → I [] s)
    (hstep : ∀ history s e t, I history s → G s e → T.step s e t →
      I (⟨s, e, t⟩ :: history) t)
    (h : T.Run G history s) : I history s := by
  induction h with
  | init h => exact hinit _ h
  | step _ hguard hs ih => exact hstep _ _ _ _ ih hguard hs

/-- The invariant rule for states. -/
theorem Reachable.invariant {I : σ → Prop} (hinit : ∀ s, T.init s → I s)
    (hstep : ∀ s e t, I s → G s e → T.step s e t → I t)
    (h : T.Reachable G s) : I s := by
  obtain ⟨history, hrun⟩ := h
  exact hrun.invariant (I := fun _ s => I s) hinit fun _ s e t => hstep s e t

/-- The invariant rule with auxiliary variables: the invariant `I` relates the
state to a value `g` that every step may choose anew. -/
theorem Reachable.ghost {I : σ → γ → Prop} (hinit : ∀ s, T.init s → ∃ g, I s g)
    (hstep : ∀ s g e t, I s g → G s e → T.step s e t → ∃ g', I t g')
    (h : T.Reachable G s) : ∃ g, I s g :=
  Reachable.invariant (I := fun s => ∃ g, I s g) hinit
    (fun s e t ⟨g, hg⟩ => hstep s g e t hg) h

/-- A run under a guard is a run under every weaker one. -/
theorem Run.mono (hG : ∀ s e, G s e → G' s e) (h : T.Run G history s) :
    T.Run G' history s := by
  induction h with
  | init h => exact .init h
  | step _ hguard hs ih => exact .step ih (hG _ _ hguard) hs

/-- A run whose steps all meet a guard is a run under it. -/
theorem Run.guard (h : T.Run G history s) (hG : ∀ x ∈ history, G' x.source x.event) :
    T.Run G' history s := by
  induction h with
  | init h => exact .init h
  | step _ _ hs ih =>
    obtain ⟨hlast, hbefore⟩ := List.forall_mem_cons.mp hG
    exact .step (ih hbefore) hlast hs

/-- Every recorded transition is a guarded step from a reachable state. -/
theorem Run.of_mem (h : T.Run G history s) {x : Transition σ ε} (hx : x ∈ history) :
    T.Reachable G x.source ∧ G x.source x.event ∧ T.step x.source x.event x.target := by
  induction h with
  | init _ => simp at hx
  | step hrun hguard hs ih =>
    rcases List.mem_cons.mp hx with rfl | hx
    · exact ⟨⟨_, hrun⟩, hguard, hs⟩
    · exact ih hx

/-- If, from good states, exactly the steps that meet a condition are good, and these lead to good
states, then all steps of a run are good iff all of them meet the condition. -/
theorem Run.transitions_iff {I : σ → Prop} {J : Transition σ ε → Prop} {C : σ → ε → Prop}
    (hinit : ∀ s, T.init s → I s) (htarget : ∀ x, J x → I x.target)
    (hstep : ∀ s e t, T.Reachable G s → I s → T.step s e t → (J ⟨s, e, t⟩ ↔ C s e))
    (h : T.Run G history s) :
    (∀ x ∈ history, J x) ↔ ∀ x ∈ history, C x.source x.event := by
  -- the present state is the initial one or the target of a step
  have hnow : ∀ {history s}, T.Run G history s → (∀ x ∈ history, J x) → I s := by
    intro history s hrun hgood
    cases hrun with
    | init hs => exact hinit _ hs
    | step _ _ _ => exact htarget _ (hgood _ (List.mem_cons_self ..))
  induction h with
  | init _ => simp
  | step hrun hguard hs ih =>
    simp only [List.forall_mem_cons]
    constructor
    · intro hgood
      have hsource := hnow hrun hgood.2
      exact ⟨(hstep _ _ _ ⟨_, hrun⟩ hsource hs).mp hgood.1, ih.mp hgood.2⟩
    · intro hcond
      have hbefore := ih.mpr hcond.2
      exact ⟨(hstep _ _ _ ⟨_, hrun⟩ (hnow hrun hbefore) hs).mpr hcond.1, hbefore⟩

/-- The same for steps that are good if the states they enter are. -/
theorem Run.targets_iff {I : σ → Prop} {C : σ → ε → Prop} (hinit : ∀ s, T.init s → I s)
    (hstep : ∀ s e t, T.Reachable G s → I s → T.step s e t → (I t ↔ C s e))
    (h : T.Run G history s) :
    (∀ x ∈ history, I x.target) ↔ ∀ x ∈ history, C x.source x.event :=
  h.transitions_iff (J := fun x => I x.target) hinit (fun _ hx => hx) hstep

/-- A run ends in the state its last step enters. -/
theorem Run.target_eq {x : Transition σ ε} (h : T.Run G (x :: history) s) : x.target = s := by
  cases h
  rfl

/-- The earlier part of a run is a run. -/
theorem Run.of_append {later : List (Transition σ ε)} (h : T.Run G (later ++ history) s) :
    ∃ t, T.Run G history t := by
  induction later generalizing s with
  | nil => exact ⟨s, h⟩
  | cons x later ih =>
    cases h with
    | step hrun _ _ => exact ih hrun

/-- What a step establishes and later steps preserve holds from then on. -/
theorem Run.onward {I : σ → Prop} {later : List (Transition σ ε)} {x : Transition σ ε}
    (h : T.Run G (later ++ x :: history) s) (hx : I x.target)
    (hstep : ∀ s e t, I s → G s e → T.step s e t → I t) : I s ∧ ∀ y ∈ later, I y.source := by
  induction later generalizing s with
  | nil =>
    obtain rfl := h.target_eq
    exact ⟨hx, by simp⟩
  | cons y later ih =>
    cases h with
    | step hrun hguard hs =>
      obtain ⟨hsource, hbefore⟩ := ih hrun
      exact ⟨hstep _ _ _ hsource hguard hs, List.forall_mem_cons.mpr ⟨hsource, hbefore⟩⟩

/-- If the steps that are counted take something that no step gives, there are at most as many
of them as there was of it. -/
theorem Run.countP_add_le {I : σ → Prop} {f : σ → ℕ} {P : Transition σ ε → Bool}
    {later : List (Transition σ ε)} {x : Transition σ ε}
    (h : T.Run G (later ++ x :: history) s) (hx : I x.target)
    (hkeep : ∀ s e t, I s → G s e → T.step s e t → I t)
    (hstep : ∀ s e t, I s → T.step s e t → f t + (if P ⟨s, e, t⟩ then 1 else 0) ≤ f s) :
    later.countP P + f s ≤ f x.target := by
  induction later generalizing s with
  | nil =>
    obtain rfl := h.target_eq
    simp
  | cons y later ih =>
    cases h with
    | step hrun hguard hs =>
      have hbefore := ih hrun
      have hlast := hstep _ _ _ (hrun.onward hx hkeep).1 hs
      rw [List.countP_cons]
      omega

/-- The same for what is said of a state together with the history that led to it. -/
theorem Run.histories_iff {I : List (Transition σ ε) → σ → Prop} {C : σ → ε → Prop}
    (hinit : ∀ s, T.init s → I [] s)
    (hstep : ∀ history s e t, T.Run G history s → I history s → T.step s e t →
      (I (⟨s, e, t⟩ :: history) t ↔ C s e))
    (h : T.Run G history s) :
    (∀ earlier t, T.Run G earlier t → earlier <:+ history → I earlier t) ↔
      ∀ x ∈ history, C x.source x.event := by
  induction h with
  | init _ =>
    constructor
    · simp
    · intro _ earlier t hrun hsuffix
      rw [List.suffix_nil] at hsuffix
      subst hsuffix
      cases hrun with
      | init ht => exact hinit t ht
  | @step history s t e hrun hguard hs ih =>
    rw [List.forall_mem_cons]
    constructor
    · intro hall
      have hbefore : ∀ earlier u, T.Run G earlier u → earlier <:+ history → I earlier u :=
        fun earlier u hu hsuffix => hall earlier u hu (hsuffix.trans (List.suffix_cons _ _))
      have hsource := hbefore history s hrun List.suffix_rfl
      have htarget := hall _ t (hrun.step hguard hs) List.suffix_rfl
      exact ⟨(hstep _ _ _ _ hrun hsource hs).mp htarget, ih.mp hbefore⟩
    · rintro ⟨hlast, hcond⟩ earlier u hu hsuffix
      have hbefore := ih.mpr hcond
      rcases List.suffix_cons_iff.mp hsuffix with rfl | hsuffix
      · obtain rfl := hu.target_eq
        exact (hstep _ _ _ _ hrun (hbefore _ _ hrun List.suffix_rfl) hs).mpr hlast
      · exact hbefore earlier u hu hsuffix

/-- A condition on the state a step leaves may be replaced by one on what happened before it, if
the two agree as long as all earlier steps met them. -/
theorem Run.suffixes_iff {J : List (Transition σ ε) → σ → Prop} {C : σ → ε → Prop}
    {D : List (Transition σ ε) → Transition σ ε → Prop} (hinit : ∀ s, T.init s → J [] s)
    (hstep : ∀ history s e t, J history s → C s e → T.step s e t → J (⟨s, e, t⟩ :: history) t)
    (hagree : ∀ history s e t, J history s → T.step s e t → (D history ⟨s, e, t⟩ ↔ C s e))
    (h : T.Run G history s) :
    (∀ x earlier, x :: earlier <:+ history → D earlier x) ↔
      ∀ x ∈ history, C x.source x.event := by
  induction h with
  | init _ => simp
  | @step history s t e hrun hguard hs ih =>
    -- the last step is judged by a history whose steps all met the condition
    have hlast : (∀ x ∈ history, C x.source x.event) → (D history ⟨s, e, t⟩ ↔ C s e) := by
      intro hcond
      have hinv : J history s := (hrun.guard hcond).invariant hinit hstep
      exact hagree _ _ _ _ hinv hs
    rw [List.forall_mem_cons]
    constructor
    · intro hall
      have hcond := ih.mp fun x earlier hx => hall x earlier (hx.trans (List.suffix_cons _ _))
      exact ⟨(hlast hcond).mp (hall _ _ List.suffix_rfl), hcond⟩
    · rintro ⟨hnow, hcond⟩ x earlier hx
      rcases List.suffix_cons_iff.mp hx with heq | hx
      · obtain ⟨rfl, rfl⟩ := List.cons.inj heq
        exact (hlast hcond).mpr hnow
      · exact ih.mpr hcond x earlier hx

/-- The states that steps which all meet the guard `G` lead to from `s`. -/
def LeadsTo (T : TransitionSystem σ ε) (G : σ → ε → Prop) : σ → σ → Prop :=
  Relation.ReflTransGen fun s t => ∃ e, G s e ∧ T.step s e t

theorem LeadsTo.refl : T.LeadsTo G s s := Relation.ReflTransGen.refl

theorem LeadsTo.single {t : σ} {e : ε} (hguard : G s e) (hs : T.step s e t) : T.LeadsTo G s t :=
  Relation.ReflTransGen.single ⟨e, hguard, hs⟩

theorem LeadsTo.trans {t u : σ} (h : T.LeadsTo G s t) (h' : T.LeadsTo G t u) : T.LeadsTo G s u :=
  Relation.ReflTransGen.trans h h'

/-- What every guarded step preserves holds wherever such steps lead. -/
theorem LeadsTo.invariant {I : σ → Prop} {t : σ}
    (hstep : ∀ s e t, I s → G s e → T.step s e t → I t) (h : T.LeadsTo G s t) (hs : I s) : I t := by
  induction h with
  | refl => exact hs
  | tail _ hlast ih =>
    obtain ⟨e, hguard, hlast⟩ := hlast
    exact hstep _ e _ ih hguard hlast

theorem LeadsTo.mono {t : σ} (hG : ∀ s e, G s e → G' s e) (h : T.LeadsTo G s t) :
    T.LeadsTo G' s t :=
  h.invariant (I := fun t => T.LeadsTo G' s t)
    (fun _ _ _ hbefore hguard hs => hbefore.trans (.single (hG _ _ hguard) hs)) .refl

/-- A run can go on with the steps that lead on from its last state. -/
theorem Reachable.leads {t : σ} (h : T.Reachable G s) (hleads : T.LeadsTo G s t) :
    T.Reachable G t :=
  hleads.invariant (fun _ _ _ ⟨_, hrun⟩ hguard hs => ⟨_, hrun.step hguard hs⟩) h

/-- The system of a step function: one initial state, and an event leads where
the function says, if it is enabled. -/
def ofExec (start : σ) (exec : σ → ε → Option σ) : TransitionSystem σ ε where
  init s := s = start
  step s e t := exec s e = some t

@[simp] theorem ofExec_init {start : σ} {exec : σ → ε → Option σ} :
    (ofExec start exec).init s ↔ s = start := Iff.rfl

@[simp] theorem ofExec_step {start : σ} {exec : σ → ε → Option σ} {e : ε} {t : σ} :
    (ofExec start exec).step s e t ↔ exec s e = some t := Iff.rfl

end TransitionSystem

/-! ## Executing a list of events -/

section Replay

variable {σ ε : Type*} {start : σ} {exec : σ → ε → Option σ} {G : σ → ε → Bool}

/-- Take the events one after another from `s`, adding the steps to `history`;
`none` as soon as one is disabled or does not meet the guard. -/
def replay (exec : σ → ε → Option σ) (G : σ → ε → Bool) :
    List (Transition σ ε) → σ → List ε → Option (List (Transition σ ε) × σ)
  | history, s, [] => some (history, s)
  | history, s, e :: events =>
    if G s e then
      match exec s e with
      | some t => replay exec G (⟨s, e, t⟩ :: history) t events
      | none => none
    else none

theorem run_of_replay_from {events : List ε} {h h' : List (Transition σ ε)} {s t : σ}
    (hrun : (TransitionSystem.ofExec start exec).Run (fun s e => G s e = true) h s)
    (hreplay : replay exec G h s events = some (h', t)) :
    (TransitionSystem.ofExec start exec).Run (fun s e => G s e = true) h' t := by
  induction events generalizing h s with
  | nil =>
    simp only [replay, Option.some.injEq, Prod.mk.injEq] at hreplay
    obtain ⟨rfl, rfl⟩ := hreplay
    exact hrun
  | cons e events ih =>
    rw [replay] at hreplay
    split at hreplay
    · rename_i hguard
      split at hreplay
      · rename_i u hu
        exact ih (.step hrun hguard hu) hreplay
      · exact absurd hreplay (by simp)
    · exact absurd hreplay (by simp)

/-- What `replay` computes from the initial state is a run under the guard. -/
theorem run_of_replay {events : List ε} {h : List (Transition σ ε)} {t : σ}
    (hreplay : replay exec G [] start events = some (h, t)) :
    (TransitionSystem.ofExec start exec).Run (fun s e => G s e = true) h t :=
  run_of_replay_from (.init rfl) hreplay

/-- A test that passes on what `replay` computes passes at the end of a run. -/
theorem exists_run_of_replay {events : List ε} (P : List (Transition σ ε) → σ → Bool)
    (h : (replay exec G [] start events).any (fun r => P r.1 r.2) = true) :
    ∃ history t, (TransitionSystem.ofExec start exec).Run (fun s e => G s e = true) history t ∧
      P history t = true := by
  cases hr : replay exec G [] start events with
  | none => simp [hr] at h
  | some r => exact ⟨r.1, r.2, run_of_replay hr, by simpa [hr] using h⟩

end Replay

end CS
