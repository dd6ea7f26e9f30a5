import Mathlib

/-!
Things that are held, and by whom: each holder has a finite collection, and the total says
how often a thing is held. One holder at a time gets, passes on or drops something.
-/
namespace Osce.Lib
open Function
set_option linter.unusedSectionVars false

variable {ι X M : Type} [Fintype ι] [DecidableEq ι]

theorem sum_update_add [AddCommMonoid M] (g : ι → M) (i : ι) (v : M) :
    (∑ j, update g i v j) + g i = (∑ j, g j) + v := by
  rw [Finset.sum_update_of_mem (Finset.mem_univ i),← Finset.add_sum_erase Finset.univ g (Finset.mem_univ i),
    Finset.sdiff_singleton_eq_erase]
  abel

variable [DecidableEq X]

/-- How often a thing is held. -/
@[irreducible] def total (held : ι → Multiset X) (x : X) : Nat := ∑ i, (held i).count x

theorem total_update (held : ι → Multiset X) (i : ι) (m : Multiset X) (x : X) :
    total (update held i m) x + (held i).count x = total held x + m.count x := by
  have after : ∀ j, (update held i m j).count x = update (fun j => (held j).count x) i (m.count x) j := by
    intro j
    by_cases same : j = i
    · rw [same,update_self,update_self]
    · rw [update_of_ne same,update_of_ne same]
  simp only [total,after]
  exact sum_update_add (fun j => (held j).count x) i (m.count x)

theorem count_le_total (held : ι → Multiset X) (i : ι) (x : X) : (held i).count x ≤ total held x := by
  rw [total]
  exact Finset.single_le_sum (f := fun j => (held j).count x) (fun _ _ => Nat.zero_le _) (Finset.mem_univ i)

theorem total_pos {held : ι → Multiset X} {i : ι} {x : X} (here : x ∈ held i) : 0 < total held x :=
  lt_of_lt_of_le (Multiset.count_pos.mpr here) (count_le_total held i x)

theorem total_cons (held : ι → Multiset X) (i : ι) (x y : X) :
    total (update held i (x ::ₘ held i)) y = total held y + if y = x then 1 else 0 := by
  have change := total_update held i (x ::ₘ held i) y
  rw [Multiset.count_cons] at change
  omega

theorem total_erase {held : ι → Multiset X} {i : ι} {x : X} (here : x ∈ held i) (y : X) :
    total (update held i ((held i).erase x)) y + (if y = x then 1 else 0) = total held y := by
  have change := total_update held i ((held i).erase x) y
  have back : (held i).count y = ((held i).erase x).count y + if y = x then 1 else 0 := by
    rw [← Multiset.count_cons,Multiset.cons_erase here]
  omega

theorem total_pass {held : ι → Multiset X} {i j : ι} (apart : j ≠ i) {x : X} (here : x ∈ held i) (y : X) :
    total (update (update held i ((held i).erase x)) j (x ::ₘ held j)) y = total held y := by
  have gain := total_cons (update held i ((held i).erase x)) j x y
  rw [update_of_ne apart] at gain
  rw [gain,total_erase here]

@[irreducible] def slots (table : ι → Option X) : Multiset X := ∑ i, (table i).elim 0 fun x => {x}

theorem slots_update (table : ι → Option X) (i : ι) (v : Option X) :
    slots (update table i v) + (table i).elim 0 (fun x => {x}) = slots table + v.elim 0 fun x => {x} := by
  have after : ∀ j, (update table i v j).elim 0 (fun x => ({x} : Multiset X)) =
      update (fun j => (table j).elim 0 fun x => ({x} : Multiset X)) i (v.elim 0 fun x => {x}) j := by
    intro j
    by_cases same : j = i
    · rw [same,update_self,update_self]
    · rw [update_of_ne same,update_of_ne same]
  simp only [slots,after]
  exact sum_update_add (fun j => (table j).elim 0 fun x => ({x} : Multiset X)) i _

theorem slots_none : slots (fun _ : ι => (none : Option X)) = 0 := by simp [slots]

theorem mem_slots {table : ι → Option X} {x : X} : x ∈ slots table ↔ ∃ i, table i = some x := by
  rw [slots,Multiset.mem_sum]
  constructor
  · rintro ⟨i,_,member⟩
    cases here : table i with
    | none => simp [here] at member
    | some y =>
      simp only [here,Option.elim_some,Multiset.mem_singleton] at member
      exact ⟨i,by rw [here,member]⟩
  · rintro ⟨i,here⟩
    exact ⟨i,Finset.mem_univ i,by simp [here]⟩

theorem count_slots (table : ι → Option X) (x : X) :
    (slots table).count x = (Finset.univ.filter fun i => table i = some x).card := by
  rw [slots,Multiset.count_sum',Finset.card_filter]
  refine Finset.sum_congr rfl fun i _ => ?_
  cases here : table i with
  | none => simp
  | some y =>
    by_cases same : y = x
    · simp [same]
    · simp [same,Ne.symm same]

end Osce.Lib
