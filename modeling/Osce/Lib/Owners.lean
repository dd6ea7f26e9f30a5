import Mathlib

/-!
An allocator with a mark for each number that is in use, and holders that own at most
one number each, 0 standing for none. What is owned is marked and has one owner; in an
exact state nothing else is marked.
-/
namespace Osce.Lib

variable {ι : Type}

structure Owned (own : ι → Nat) (marked : Nat → Bool) (lo hi : Nat) : Prop where
  apart : ∀ x y, own x ≠ 0 → own x = own y → x = y
  marked : ∀ x, own x ≠ 0 → marked (own x) = true
  range : ∀ x, own x ≠ 0 → lo ≤ own x ∧ own x < hi

section
variable {own own' : ι → Nat} {marked marked' : Nat → Bool} {lo hi : Nat}

theorem Owned.fresh (owned : Owned own marked lo hi) {b : Nat} (clear : marked b = false) (positive : b ≠ 0) (x : ι) :
    own x ≠ b := by
  rintro rfl
  rw [owned.marked x positive] at clear
  cases clear

theorem Owned.take (owned : Owned own marked lo hi) {x : ι} {b : Nat} (clear : marked b = false) (low : lo ≤ b)
    (high : b < hi) (positive : b ≠ 0) (mine : own' x = b) (others : ∀ y, y ≠ x → own' y = own y)
    (marks : ∀ c, lo ≤ c → c < hi → marked' c = (decide (c = b) || marked c)) : Owned own' marked' lo hi := by
  have kept (y : ι) (some : own' y ≠ 0) : own' y = b ∧ y = x ∨ own' y ≠ b ∧ own' y = own y := by
    by_cases same : y = x
    · exact .inl ⟨same ▸ mine,same⟩
    · rw [others y same]
      exact .inr ⟨owned.fresh clear positive y,rfl⟩
  refine ⟨fun y z some equal => ?_,fun y some => ?_,fun y some => ?_⟩
  · rcases kept y some with ⟨atB,rfl⟩ | ⟨other,before⟩
    · rcases kept z (equal ▸ some) with ⟨_,rfl⟩ | ⟨other,_⟩
      · rfl
      · exact absurd (equal ▸ atB) other
    · rcases kept z (equal ▸ some) with ⟨atB,_⟩ | ⟨_,before'⟩
      · exact absurd (equal.trans atB) other
      · exact owned.apart y z (before ▸ some) (before ▸ before' ▸ equal)
  · rcases kept y some with ⟨atB,_⟩ | ⟨other,before⟩
    · rw [atB,marks b low high]
      simp
    · have inRange := owned.range y (before ▸ some)
      rw [before,marks _ inRange.1 inRange.2,owned.marked y (before ▸ some)]
      simp
  · rcases kept y some with ⟨atB,_⟩ | ⟨_,before⟩
    · rw [atB]
      exact ⟨low,high⟩
    · rw [before]
      exact owned.range y (before ▸ some)

theorem Owned.forget (owned : Owned own marked lo hi) (fewer : ∀ y, own' y = own y ∨ own' y = 0)
    (marks : ∀ c, lo ≤ c → c < hi → marked' c = marked c) : Owned own' marked' lo hi := by
  have kept (y : ι) (some : own' y ≠ 0) : own' y = own y := (fewer y).resolve_right some
  refine ⟨fun y z some equal => ?_,fun y some => ?_,fun y some => ?_⟩
  · have first := kept y some
    have second := kept z (equal ▸ some)
    exact owned.apart y z (first ▸ some) (first ▸ second ▸ equal)
  · have same := kept y some
    have inRange := owned.range y (same ▸ some)
    rw [same,marks _ inRange.1 inRange.2]
    exact owned.marked y (same ▸ some)
  · have same := kept y some
    rw [same]
    exact owned.range y (same ▸ some)

end

end Osce.Lib
