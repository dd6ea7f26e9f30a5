import Mathlib

/-!
Numbered slots that hold one thing each, or nothing, and the collection of what they hold.
A table of pointers owns what its slots point to: one slot is filled or emptied at a
time, and as long as nothing is held twice a thing tells its slot.
-/
namespace Osce.Lib
open Finset
set_option linter.unusedSectionVars false

variable {X : Type} [DecidableEq X] {n : Nat} {f g : Nat → Option X} {x : X}

def single : Option X → Multiset X
  | none => 0
  | some x => {x}

@[simp] theorem single_none : single (none : Option X) = 0 := rfl
@[simp] theorem single_some (x : X) : single (some x) = {x} := rfl

theorem mem_single {slot : Option X} : x ∈ single slot ↔ slot = some x := by
  cases slot with
  | none => simp
  | some y => simp [eq_comm]

theorem card_single_le (slot : Option X) : (single slot).card ≤ 1 := by
  cases slot <;> simp

/-- What the first `n` slots hold. -/
@[irreducible] def taken (n : Nat) (f : Nat → Option X) : Multiset X := ∑ i ∈ Finset.range n, single (f i)

theorem mem_taken : x ∈ taken n f ↔ ∃ i < n, f i = some x := by
  rw [taken,Multiset.mem_sum]
  simp only [mem_range,mem_single]

theorem taken_congr (same : ∀ i < n, f i = g i) : taken n f = taken n g := by
  rw [taken,taken]
  exact sum_congr rfl fun i inside => by rw [same i (mem_range.mp inside)]

theorem taken_empty (empty : ∀ i < n, f i = none) : taken n f = 0 := by
  rw [taken]
  exact sum_eq_zero fun i inside => by rw [empty i (mem_range.mp inside),single_none]

theorem sum_change {A B : Nat → Multiset X} {i : Nat} (inside : i < n) (others : ∀ j < n, j ≠ i → A j = B j) :
    ∑ j ∈ range n, A j + B i = ∑ j ∈ range n, B j + A i := by
  have member := mem_range.mpr inside
  have rest : ∑ j ∈ (range n).erase i, A j = ∑ j ∈ (range n).erase i, B j :=
    sum_congr rfl fun j there => others j (mem_range.mp (mem_of_mem_erase there)) (ne_of_mem_erase there)
  rw [← add_sum_erase _ _ member,← add_sum_erase (range n) B member,rest]
  abel

theorem taken_change {i : Nat} (inside : i < n) (others : ∀ j < n, j ≠ i → f j = g j) :
    taken n f + single (g i) = taken n g + single (f i) := by
  rw [taken,taken]
  exact sum_change (A := fun j => single (f j)) (B := fun j => single (g j)) inside fun j low other => by rw [others j low other]

theorem taken_fill {i : Nat} (inside : i < n) (others : ∀ j < n, j ≠ i → f j = g j) (empty : g i = none) (full : f i = some x) :
    taken n f = x ::ₘ taken n g := by
  have change := taken_change inside others
  rw [empty,full,single_none,single_some,add_zero] at change
  rw [change,← Multiset.singleton_add,add_comm]

theorem taken_eq_sum (n : Nat) (f : Nat → Option X) : taken n f = ((List.range n).map fun i => single (f i)).sum := by
  rw [taken]
  induction n with
  | zero => rfl
  | succ n ih => rw [sum_range_succ,ih,List.range_succ,List.map_append,List.sum_append,List.map_singleton,List.sum_singleton]

theorem two_le_count_taken {i j : Nat} (apart : i ≠ j) (hi : i < n) (hj : j < n) (first : f i = some x) (second : f j = some x) :
    2 ≤ (taken n f).count x := by
  have pair : ({i,j} : Finset Nat) ⊆ range n := by
    intro k member
    rcases mem_insert.mp member with rfl | last
    · exact mem_range.mpr hi
    · rw [mem_singleton.mp last]
      exact mem_range.mpr hj
  have counted : (taken n f).count x = ∑ k ∈ range n, (single (f k)).count x := by
    rw [taken]
    exact Multiset.count_sum' ..
  have part := sum_le_sum_of_subset (f := fun k => (single (f k)).count x) pair
  rw [sum_pair apart,first,second,single_some,Multiset.count_singleton_self] at part
  omega

theorem taken_inj (once : (taken n f).Nodup) {i j : Nat} (hi : i < n) (hj : j < n) (first : f i = some x)
    (second : f j = some x) : i = j := by
  by_contra apart
  have twice := two_le_count_taken apart hi hj first second
  have single := Multiset.nodup_iff_count_le_one.mp once x
  omega

theorem card_taken_among {among : Finset Nat} (empty : ∀ i < n, i ∉ among → f i = none) : (taken n f).card ≤ among.card := by
  have counted : (taken n f).card = ∑ i ∈ range n, (single (f i)).card := by
    rw [taken]
    exact Multiset.card_sum ..
  have bound : ∀ i ∈ range n, (single (f i)).card ≤ if i ∈ among then 1 else 0 := by
    intro i inside
    split
    · exact card_single_le _
    · rename_i outside
      rw [empty i (mem_range.mp inside) outside]
      simp
  rw [counted]
  refine (sum_le_sum bound).trans ?_
  rw [← card_filter]
  exact card_le_card fun i member => (mem_filter.mp member).2

theorem card_taken_le {k : Nat} (empty : ∀ i < n, k ≤ i → f i = none) : (taken n f).card ≤ k :=
  (card_taken_among fun i inside outside =>
    empty i inside (Nat.le_of_not_lt fun below => outside (mem_range.mpr below))).trans (card_range k).le

theorem card_taken_full (full : ∀ i < n, f i ≠ none) : (taken n f).card = n := by
  have one : ∀ i ∈ range n, (single (f i)).card = 1 := by
    intro i inside
    obtain ⟨x,isSome⟩ := Option.ne_none_iff_exists'.mp (full i (mem_range.mp inside))
    rw [isSome,single_some,Multiset.card_singleton]
  rw [taken,Multiset.card_sum,sum_congr rfl one]
  simp

end Osce.Lib
