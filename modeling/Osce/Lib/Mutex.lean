import Mathlib

/-!
A lock that has at most one holder: exactly the holder is inside. One process at a time
enters, leaves or moves about, and the others stay where they are.
-/
namespace Osce.Lib

variable {P : Type} {inside inside' : P → Prop} {lock : Option P} {q : P}

/-- Exactly the holder of the lock is inside. -/
def Guards (lock : Option P) (inside : P → Prop) : Prop := ∀ q, inside q ↔ lock = some q

theorem Guards.alone (guards : Guards lock inside) {r : P} (here : inside q) (there : inside r) : r = q := by
  have same := (guards q).mp here
  rw [(guards r).mp there] at same
  exact Option.some.inj same

theorem Guards.enters (guards : Guards lock inside) (free : lock = none) (here : inside' q)
    (others : ∀ r, r ≠ q → (inside' r ↔ inside r)) : Guards (some q) inside' := by
  intro r
  by_cases same : r = q
  · rw [same]
    exact ⟨fun _ => rfl,fun _ => here⟩
  · rw [others r same,guards r,free]
    exact ⟨nofun,fun h => absurd (Option.some.inj h).symm same⟩

theorem Guards.leaves (guards : Guards lock inside) (was : inside q) (gone : ¬ inside' q)
    (others : ∀ r, r ≠ q → (inside' r ↔ inside r)) : Guards none inside' := by
  intro r
  by_cases same : r = q
  · rw [same]
    exact ⟨fun h => absurd h gone,nofun⟩
  · rw [others r same,guards r,(guards q).mp was]
    exact ⟨fun h => absurd (Option.some.inj h).symm same,nofun⟩

theorem Guards.stays (guards : Guards lock inside) (here : inside' q ↔ inside q)
    (others : ∀ r, r ≠ q → (inside' r ↔ inside r)) : Guards lock inside' := by
  intro r
  by_cases same : r = q
  · rw [same,here]
    exact guards q
  · rw [others r same]
    exact guards r

/-- The others are where they were when one moves, up to a change that does not matter. -/
theorem update_others {A : Type} [DecidableEq P] {f : A → Prop} {change : A → A} (same : ∀ a, f (change a) ↔ f a)
    (g : P → A) (a : A) (r : P) (other : r ≠ q) : f (Function.update (fun r => change (g r)) q a r) ↔ f (g r) := by
  rw [Function.update_of_ne other]
  exact same (g r)

end Osce.Lib
