import Mathlib

/-!
Machines that take one labelled step at a time. A step may not be possible, may lead
to a new state, or may stop the machine with a message. A run is any list of steps
that a condition on the state and the step allows.
-/
namespace Osce.Lib

abbrev Steps (σ A : Type) := σ → A → Option (Except String σ)

namespace Steps

variable {σ A : Type}

/-- The states of all runs whose steps are allowed. -/
inductive Reachable (step : Steps σ A) (allowed : σ → A → Prop) (start : σ) : σ → Prop where
  | start : Reachable step allowed start start
  | step {s s' : σ} {a : A} (before : Reachable step allowed start s) (meets : allowed s a)
      (taken : step s a = some (.ok s')) : Reachable step allowed start s'

section
variable {step : Steps σ A} {allowed allowed' : σ → A → Prop} {start s s' : σ}

/-- What holds at the start and is kept by every step of a run holds throughout. -/
theorem Reachable.invariant {I : σ → Prop} (reachable : Reachable step allowed start s) (first : I start)
    (kept : ∀ s a s', Reachable step allowed start s → I s → allowed s a → step s a = some (.ok s') → I s') :
    I s := by
  induction reachable with
  | start => exact first
  | step before meets taken ih => exact kept _ _ _ before ih meets taken

theorem Reachable.weaken (reachable : Reachable step allowed start s) (weaker : ∀ s a, allowed s a → allowed' s a) :
    Reachable step allowed' start s := by
  induction reachable with
  | start => exact .start
  | step _ meets taken ih => exact .step ih (weaker _ _ meets) taken

/-- The state after a list of steps, if each of them is allowed and taken. -/
def run (step : Steps σ A) (allowed : σ → A → Prop) [∀ s a, Decidable (allowed s a)] (s : σ) : List A → Option σ
  | [] => some s
  | a :: rest =>
    if allowed s a then
      match step s a with
      | some (.ok s') => run step allowed s' rest
      | _ => none
    else none

theorem reachable_run [∀ s a, Decidable (allowed s a)] {actions : List A} (before : Reachable step allowed start s)
    (taken : run step allowed s actions = some s') : Reachable step allowed start s' := by
  induction actions generalizing s with
  | nil =>
    cases taken
    exact before
  | cons a rest ih =>
    rw [run] at taken
    split at taken
    · split at taken
      · exact ih (.step before ‹_› ‹_›) taken
      · cases taken
    · cases taken

def stops (text : String) : Option (Except String σ) → Bool
  | some (.error m) => m == text
  | _ => false

theorem eq_of_stops {text : String} {r : Option (Except String σ)} (stopped : stops text r = true) :
    r = some (.error text) := by
  unfold stops at stopped
  split at stopped
  · rw [beq_iff_eq.mp stopped]
  · cases stopped

end

end Steps

end Osce.Lib
