import Mathlib.Control.Basic

/-! # Guarded transition systems

A component whose state changes by discrete events is a step function
`step s e`, which is `some s'` when the event `e` is enabled in `s` and
`none` otherwise. The reachable states are those a run of enabled events
leads to from an initial state; the initial states are a predicate, so that a
run may start from any state of a family (a store left by earlier runs, say).

The rules below prove a property of every reachable state from a property of
the initial states and one step, also for a property asked of a state only
while a flag that never comes back holds, and replay a list of events.
-/

namespace Transition

variable {S E : Type*} (step : S → E → Option S) (init : S → Prop)

/-- The states reached from an initial state by enabled events. -/
inductive Reachable : S → Prop where
  | init {s : S} : init s → Reachable s
  | step {s s' : S} {e : E} : Reachable s → step s e = some s' → Reachable s'

/-- Replay a list of events from `s`; `none` when one is not enabled. -/
def runFrom (s : S) (evs : List E) : Option S :=
  evs.foldlM step s

variable {step init}

/-- The invariant rule: a property of the initial states that every enabled
step keeps holds of every reachable state. -/
theorem Reachable.induction {P : S → Prop} (hinit : ∀ s, init s → P s)
    (hstep : ∀ s e s', P s → step s e = some s' → P s') {s : S}
    (h : Reachable step init s) : P s := by
  induction h with
  | init hs => exact hinit _ hs
  | step _ hse ih => exact hstep _ _ _ ih hse

/-- The invariant rule under a guard that no step brings back once it fails
(a property of the state after a step holds before it): a property kept by
every step into a guarded state holds of every reachable guarded state. -/
theorem Reachable.induction_guarded {Q P : S → Prop}
    (hQ : ∀ s e s', step s e = some s' → Q s' → Q s)
    (hinit : ∀ s, init s → Q s → P s)
    (hstep : ∀ s e s', P s → step s e = some s' → Q s' → P s') {s : S}
    (h : Reachable step init s) (hq : Q s) : P s := by
  induction h with
  | init hs => exact hinit _ hs hq
  | step _ hse ih => exact hstep _ _ _ (ih (hQ _ _ _ hse hq)) hse hq

/-- A replay from a reachable state ends in a reachable state. -/
theorem Reachable.runFrom {s : S} (hs : Reachable step init s) :
    ∀ (evs : List E) {s' : S}, runFrom step s evs = some s' → Reachable step init s' := by
  intro evs
  induction evs generalizing s with
  | nil =>
    intro s' h
    cases h
    exact hs
  | cons e evs ih =>
    intro s' h
    simp only [Transition.runFrom, List.foldlM_cons] at h
    cases hse : step s e with
    | none => simp [hse] at h
    | some s₁ =>
      simp only [hse, Option.bind_eq_bind, Option.bind_some] at h
      exact ih (hs.step hse) h

end Transition
