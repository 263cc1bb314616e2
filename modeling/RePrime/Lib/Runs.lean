import Mathlib.Logic.Relation

/-!
# RePrime.Lib.Runs

Runs of a system that is given by a step function: `step s a` is the state after action `a`, when it can be
taken in `s`.

* `Runs`, `GuardedRuns`: any steps in a row, and steps that a guard allows.
* `Runs.keeps`, `GuardedRuns.keeps`: what each step keeps holds at the end of a run.
* `steps`: an executable list of actions, with `runs_of_steps` and `guardedRuns_of_steps`.
-/

namespace RePrime
namespace Transition

variable {S A : Type} {step : S → A → Option S} {guard : S → A → Prop} {P : S → Prop} {s s' : S}

def Runs (step : S → A → Option S) : S → S → Prop := Relation.ReflTransGen fun s s' => ∃ a, step s a = some s'

def GuardedRuns (step : S → A → Option S) (guard : S → A → Prop) : S → S → Prop :=
  Relation.ReflTransGen fun s s' => ∃ a, guard s a ∧ step s a = some s'

theorem Runs.keeps (h : Runs step s s') (hs : P s) (hstep : ∀ s s' a, P s → step s a = some s' → P s') : P s' := by
  induction h with
  | refl => exact hs
  | tail _ hlast ih =>
    obtain ⟨a, hlast⟩ := hlast
    exact hstep _ _ a ih hlast

theorem GuardedRuns.keeps (h : GuardedRuns step guard s s') (hs : P s)
    (hstep : ∀ s s' a, P s → guard s a → step s a = some s' → P s') : P s' := by
  induction h with
  | refl => exact hs
  | tail _ hlast ih =>
    obtain ⟨a, hg, hlast⟩ := hlast
    exact hstep _ _ a ih hg hlast

/-- The actions one after the other. -/
def steps (step : S → A → Option S) : List A → S → Option S
  | [], s => some s
  | a :: as, s => (step s a).bind (steps step as)

theorem runs_of_steps {as : List A} (h : steps step as s = some s') : Runs step s s' := by
  induction as generalizing s with
  | nil =>
    cases h
    exact .refl
  | cons a as ih =>
    obtain ⟨t, hstep, h⟩ := Option.bind_eq_some_iff.mp h
    exact .head ⟨a, hstep⟩ (ih h)

/-- The actions one after the other, when the guard allows them all. -/
def guardedSteps (step : S → A → Option S) (guard : S → A → Prop) [∀ s a, Decidable (guard s a)] :
    List A → S → Option S
  | [], s => some s
  | a :: as, s => if guard s a then (step s a).bind (guardedSteps step guard as) else none

theorem guardedRuns_of_steps [∀ s a, Decidable (guard s a)] {as : List A}
    (h : guardedSteps step guard as s = some s') : GuardedRuns step guard s s' := by
  induction as generalizing s with
  | nil =>
    cases h
    exact .refl
  | cons a as ih =>
    simp only [guardedSteps] at h
    split at h
    · obtain ⟨t, hstep, h⟩ := Option.bind_eq_some_iff.mp h
      exact .head ⟨a, ‹_›, hstep⟩ (ih h)
    · cases h

/-- A run on fixed actions ends in a state that passes a test. -/
theorem exists_run {as : List A} {test : S → Bool} (h : ((steps step as s).any test) = true) :
    ∃ s', Runs step s s' ∧ test s' = true := by
  cases hs : steps step as s with
  | none => simp [hs] at h
  | some s' =>
    rw [hs, Option.any_some] at h
    exact ⟨s', runs_of_steps hs, h⟩

theorem exists_guardedRun [∀ s a, Decidable (guard s a)] {as : List A} {test : S → Bool}
    (h : ((guardedSteps step guard as s).any test) = true) : ∃ s', GuardedRuns step guard s s' ∧ test s' = true := by
  cases hs : guardedSteps step guard as s with
  | none => simp [hs] at h
  | some s' =>
    rw [hs, Option.any_some] at h
    exact ⟨s', guardedRuns_of_steps hs, h⟩

end Transition
end RePrime
