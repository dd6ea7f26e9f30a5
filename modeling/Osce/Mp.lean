import Osce.Lib.Bytes

/-!
The configuration table of a multiprocessor, as mp.c reads it: what `mpconfig` accepts of a
table, and the loop of `mpinit` over its entries. A table is given by the bytes from its
address on.
-/
namespace Osce.Mp
open Osce.Lib Function

def NCPU : Nat := 8

def MPPROC : UInt8 := 0
def MPBUS : UInt8 := 1
def MPIOAPIC : UInt8 := 2
def MPIOINTR : UInt8 := 3
def MPLINTR : UInt8 := 4

def MPBOOT : UInt8 := 2

def sum (addr : Nat → UInt8) (len : Nat) : UInt8 := ((List.range len).map addr).sum

/-- `conf->length` -/
def length (conf : Nat → UInt8) : Nat := leNat [conf 4,conf 5]

/-- The checks of the table: the signature "PCMP", the version and the checksum. -/
def mpconfig (conf : Nat → UInt8) : Bool :=
  [conf 0,conf 1,conf 2,conf 3] == [80,67,77,80] && (conf 6 == 1 || conf 6 == 4) && sum conf (length conf) == 0

structure State where
  ismp : Bool
  ncpu : Nat
  /-- The place of `bcpu` in `cpus`. -/
  bcpu : Nat
  /-- `cpus[i].id` -/
  id : Fin NCPU → UInt8
  ioapicid : UInt8
  lapic : Nat

/-- One turn of the loop: where `p` goes, or the place outside `cpus` that would be written. -/
def turn (conf : Nat → UInt8) (p : Nat) (s : State) : Except Nat (Nat × State) :=
  if conf p = MPPROC then
    if inside : s.ncpu < NCPU then
      .ok (p + 20,{ s with
        ismp := s.ismp && s.ncpu == (conf (p + 1)).toNat
        bcpu := if conf (p + 3) &&& MPBOOT ≠ 0 then s.ncpu else s.bcpu
        id := Function.update s.id ⟨s.ncpu,inside⟩ (UInt8.ofNat s.ncpu)
        ncpu := s.ncpu + 1 })
    else .error s.ncpu
  else if conf p = MPIOAPIC then .ok (p + 8,{ s with ioapicid := conf (p + 1) })
  else if conf p = MPBUS ∨ conf p = MPIOINTR ∨ conf p = MPLINTR then .ok (p + 8,s)
  else .ok (p,{ s with ismp := false })

/-- The loop; `none` if it needs more turns. -/
def loop (conf : Nat → UInt8) : Nat → Nat → State → Option (Except Nat State)
  | 0, _, _ => none
  | turns+1, p, s =>
    if p < length conf then
      match turn conf p s with
      | .ok (p',s') => loop conf turns p' s'
      | .error i => some (.error i)
    else some (.ok s)

def mpinit (turns : Nat) (conf : Nat → UInt8) : Option (Except Nat State) :=
  let s : State := ⟨false,0,0,fun _ => 0,0,0⟩
  if mpconfig conf then
    -- the entries start behind the header, at `conf+1`
    (loop conf turns 44 { s with ismp := true, lapic := leNat [conf 36,conf 37,conf 38,conf 39] }).map fun r =>
      r.map fun s => if s.ismp then s else { s with ncpu := 1, lapic := 0, ioapicid := 0 }
  else some (.ok s)

/-- From `p` on the table has entries of the known types, and this many of them are processors. -/
inductive Entries (conf : Nat → UInt8) : Nat → Nat → Prop
  | done {p : Nat} (past : length conf ≤ p) : Entries conf p 0
  | proc {p k : Nat} (more : p < length conf) (type : conf p = MPPROC) (rest : Entries conf (p + 20) k) : Entries conf p (k + 1)
  | other {p k : Nat} (more : p < length conf) (type : conf p ∈ [MPIOAPIC,MPBUS,MPIOINTR,MPLINTR]) (rest : Entries conf (p + 8) k) : Entries conf p k

section
variable {conf : Nat → UInt8} {p k turns : Nat} {s s' : State}

theorem loop_of_entries (table : Entries conf p k) (fits : s.ncpu + k ≤ NCPU) :
    ∃ turns s', loop conf turns p s = some (.ok s') ∧ s'.ncpu = s.ncpu + k := by
  induction table generalizing s with
  | done past => exact ⟨1,s,by rw [loop,if_neg (by omega)],rfl⟩
  | @proc p k more type rest ih =>
    obtain ⟨s₁,run,count⟩ : ∃ s₁, turn conf p s = .ok (p + 20,s₁) ∧ s₁.ncpu = s.ncpu + 1 := by
      rw [turn,if_pos type,dif_pos (by omega)]
      exact ⟨_,rfl,rfl⟩
    obtain ⟨turns,s',runs,total⟩ := ih (s := s₁) (by omega)
    exact ⟨turns + 1,s',by rw [loop,if_pos more,run]; exact runs,by omega⟩
  | @other p k more type rest ih =>
    obtain ⟨s₁,run,count⟩ : ∃ s₁, turn conf p s = .ok (p + 8,s₁) ∧ s₁.ncpu = s.ncpu := by
      simp only [List.mem_cons,List.not_mem_nil,or_false] at type
      rcases type with type | type | type | type <;> simp [turn,type,MPPROC,MPIOAPIC,MPBUS,MPIOINTR,MPLINTR]
    obtain ⟨turns,s',runs,total⟩ := ih (s := s₁) (by omega)
    exact ⟨turns + 1,s',by rw [loop,if_pos more,run]; exact runs,by omega⟩

/-- A loop that ends has come to the end of the table; an entry of another type it never gets past. -/
theorem entries_of_loop (run : loop conf turns p s = some (.ok s')) (few : s.ncpu ≤ NCPU) : ∃ k, Entries conf p k ∧ s.ncpu + k ≤ NCPU := by
  induction turns generalizing p s with
  | zero => cases run
  | succ turns ih =>
    rw [loop] at run
    by_cases more : p < length conf
    swap
    · exact ⟨0,.done (by omega),few⟩
    rw [if_pos more] at run
    unfold turn at run
    generalize (if conf (p + 3) &&& MPBOOT ≠ 0 then s.ncpu else s.bcpu) = boot at run
    split_ifs at run with type inside type₂ type₃
    · obtain ⟨k,rest,fits⟩ := ih run inside
      exact ⟨k + 1,.proc more type rest,by simpa only [Nat.add_assoc,Nat.add_comm 1] using fits⟩
    · cases run
    · obtain ⟨k,rest,fits⟩ := ih run few
      exact ⟨k,.other more (by simp [type₂]) rest,fits⟩
    · obtain ⟨k,rest,fits⟩ := ih run few
      exact ⟨k,.other more (by simp [type₃]) rest,fits⟩
    · exact ih (s := { s with ismp := false }) run few

end

/-- `mpinit` returns from a table that `mpconfig` accepts, with at most `NCPU` processors and
    no store outside `cpus`, exactly if all entries have known types and at most `NCPU` of
    them are processors. -/
theorem mpinit_robust (conf : Nat → UInt8) (accepted : mpconfig conf = true) :
    (∃ turns s, mpinit turns conf = some (.ok s) ∧ s.ncpu ≤ NCPU) ↔ ∃ k ≤ NCPU, Entries conf 44 k := by
  constructor
  · rintro ⟨turns,s,run,-⟩
    rw [mpinit,if_pos accepted,Option.map_eq_some_iff] at run
    obtain ⟨r | s',run,same⟩ := run
    · cases same
    · obtain ⟨k,table,fits⟩ := entries_of_loop run (Nat.zero_le _)
      exact ⟨k,by simpa using fits,table⟩
  · rintro ⟨k,few,table⟩
    obtain ⟨turns,s,run,count⟩ := loop_of_entries table (s := ⟨true,0,0,fun _ => 0,0,leNat [conf 36,conf 37,conf 38,conf 39]⟩) (by simpa using few)
    refine ⟨turns,_,by rw [mpinit,if_pos accepted,run]; rfl,?_⟩
    dsimp only
    split
    · simpa [count] using few
    · exact Nat.one_le_ofNat

/-- Two processors, a bus, an I/O APIC and two interrupts. -/
def several (p : Nat) : UInt8 :=
  [80,67,77,80,116,0,1,71].getD p (([(65,1),(67,2),(84,1),(92,2),(93,7),(100,3),(108,4)].lookup p).getD 0)

theorem mpinit_robust_several : mpconfig several = true ∧ Entries several 44 2 ∧
    ∃ turns s, mpinit turns several = some (.ok s) ∧ s.ncpu ≤ NCPU := by
  have entries : Entries several 44 2 := .proc (by decide) (by decide) (.proc (by decide) (by decide) (.other (by decide) (by decide)
    (.other (by decide) (by decide) (.other (by decide) (by decide) (.other (by decide) (by decide) (.done (by decide)))))))
  exact ⟨by decide +kernel,entries,(mpinit_robust several (by decide +kernel)).mpr ⟨2,by decide,entries⟩⟩

/-- A table of a length, with a checksum and the type of the first entry; the other bytes are 0. -/
def sample (len checksum type : UInt8) (p : Nat) : UInt8 := [80,67,77,80,len,0,1,checksum].getD p (if p = 44 then type else 0)

theorem sample_unknown (turns : Nat) (s : State) : loop (sample 45 157 5) turns 44 s = none := by
  induction turns generalizing s with
  | zero => rfl
  | succ turns ih =>
    rw [loop,if_pos (by decide)]
    exact ih _

/-- The loop stays at an entry of an unknown type, and nine processors are one too many for `cpus`. -/
theorem mpinit_stuck : mpconfig (sample 45 157 5) = true ∧ (∀ turns, mpinit turns (sample 45 157 5) = none) ∧
    mpconfig (sample 224 239 0) = true ∧ ∃ turns, mpinit turns (sample 224 239 0) = some (.error 8) := by
  refine ⟨by decide +kernel,fun turns => ?_,by decide +kernel,10,?_⟩
  · rw [mpinit,if_pos (by decide +kernel),sample_unknown]
    rfl
  · rw [mpinit,if_pos (by decide +kernel)]
    rfl

end Osce.Mp
