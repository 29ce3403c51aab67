import DreamboatRpc.CS.Transition

/-!
# Forward simulation

A concrete system is simulated by an abstract one if every concrete step can be followed by
some abstract steps, possibly none, so that related states stay related. Then every reachable
concrete state is related to a reachable abstract one.

## Main definitions

* `TransitionSystem.Steps` — any number of steps, whatever their events
* `TransitionSystem.Simulates` — a relation that follows the steps of the concrete system

## Main results

* `Reachable.steps` — what is reached from a reachable state is reachable
* `Simulates.reachable` — reachable states are related to reachable ones
-/

namespace CS.TransitionSystem

variable {σ ε τ η : Type*}

/-- One step of a system, whatever its event. -/
def Step (T : TransitionSystem σ ε) (s t : σ) : Prop := ∃ e, T.step s e t

/-- Any number of steps. -/
abbrev Steps (T : TransitionSystem σ ε) : σ → σ → Prop := Relation.ReflTransGen T.Step

/-- Steps that meet a guard are steps. -/
theorem LeadsTo.steps {T : TransitionSystem σ ε} {G : σ → ε → Prop} {s t : σ}
    (h : T.LeadsTo G s t) : T.Steps s t :=
  Relation.ReflTransGen.mono (fun _ _ ⟨e, _, hstep⟩ => ⟨e, hstep⟩) _ _ h

theorem Reachable.steps {T : TransitionSystem σ ε} {s t : σ} (h : T.Reachable unguarded s)
    (hsteps : T.Steps s t) : T.Reachable unguarded t := by
  induction hsteps with
  | refl => exact h
  | tail _ hstep ih =>
    obtain ⟨history, hrun⟩ := ih
    obtain ⟨e, he⟩ := hstep
    exact ⟨_, hrun.step trivial he⟩

/-- `R` relates the states of the system `C` to those of the system `A` so that `A` can follow
every step of `C` from a state it has reached. -/
structure Simulates (C : TransitionSystem σ ε) (A : TransitionSystem τ η) (R : σ → τ → Prop) :
    Prop where
  init : ∀ c, C.init c → ∃ a, A.init a ∧ R c a
  step : ∀ c e c' a, R c a → A.Reachable unguarded a → C.step c e c' →
    ∃ a', A.Steps a a' ∧ R c' a'

variable {C : TransitionSystem σ ε} {A : TransitionSystem τ η} {R : σ → τ → Prop}

theorem Simulates.reachable (h : Simulates C A R) {G : σ → ε → Prop} {c : σ}
    (hc : C.Reachable G c) : ∃ a, A.Reachable unguarded a ∧ R c a := by
  refine Reachable.ghost (I := fun c a => A.Reachable unguarded a ∧ R c a) ?_ ?_ hc
  · intro c hinit
    obtain ⟨a, ha, hR⟩ := h.init c hinit
    exact ⟨a, ⟨[], .init ha⟩, hR⟩
  · rintro c a e c' ⟨hreach, hR⟩ - hstep
    obtain ⟨a', hsteps, hR'⟩ := h.step c e c' a hR hreach hstep
    exact ⟨a', hreach.steps hsteps, hR'⟩

end CS.TransitionSystem
