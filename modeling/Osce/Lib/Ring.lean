import Mathlib

/-!
A ring buffer with two counters that are never reduced: they wrap around at the width of
their type, and only the index into the buffer is taken modulo its size. As long as
the size divides the range of the counters, the buffer is a queue of the elements
between them.
-/
namespace Osce.Lib.Ring

variable {α : Type} {w N : Nat} {data : Nat → α} {nread nwrite : BitVec w}

def count (nread nwrite : BitVec w) : Nat := (nwrite - nread).toNat

/-- The elements in the buffer, the oldest first. -/
def content (N : Nat) (data : Nat → α) (nread nwrite : BitVec w) : List α :=
  (List.range (count nread nwrite)).map fun i => data ((nread.toNat + i) % N)

@[simp] theorem length_content : (content N data nread nwrite).length = count nread nwrite := by
  simp [content]

theorem count_eq_zero : count nread nwrite = 0 ↔ nread = nwrite := by
  rw [count]
  constructor
  · intro zero
    have same : nwrite - nread = 0 := BitVec.eq_of_toNat_eq (by simpa using zero)
    exact (sub_eq_zero.mp same).symm
  · rintro rfl
    simp

theorem content_eq_nil : content N data nread nwrite = [] ↔ nread = nwrite := by
  rw [← List.length_eq_zero_iff,length_content,count_eq_zero]

theorem count_eq_size (small : N < 2 ^ w) : count nread nwrite = N ↔ nwrite = nread + BitVec.ofNat w N := by
  have size : (BitVec.ofNat w N).toNat = N := by simp [Nat.mod_eq_of_lt small]
  rw [count]
  constructor
  · intro full
    have same : nwrite - nread = BitVec.ofNat w N := BitVec.eq_of_toNat_eq (by rw [size]; exact full)
    rw [← same]
    abel
  · rintro rfl
    rw [add_sub_cancel_left,size]

theorem toNat_ahead : nwrite.toNat = (nread.toNat + count nread nwrite) % 2 ^ w := by
  rw [count,← BitVec.toNat_add,add_sub_cancel]

theorem toNat_one (wide : 1 < 2 ^ w) : (1 : BitVec w).toNat = 1 := Nat.mod_eq_of_lt wide

theorem count_push (room : count nread nwrite + 1 < 2 ^ w) : count nread (nwrite + 1) = count nread nwrite + 1 := by
  have step : nwrite + 1 - nread = nwrite - nread + 1 := by abel
  rw [count] at room
  rw [count,count,step,BitVec.toNat_add,toNat_one (by omega),Nat.mod_eq_of_lt room]

theorem toNat_sub_one {x : BitVec w} (positive : x.toNat ≠ 0) : x.toNat = (x - 1).toNat + 1 := by
  have bound : x.toNat < 2 ^ w := x.isLt
  have one := toNat_one (w := w) (by omega)
  have least : 1 ≤ x := by
    rw [BitVec.le_def,one]
    omega
  rw [BitVec.toNat_sub_of_le least,one]
  omega

theorem count_pop (some : nread ≠ nwrite) : count nread nwrite = count (nread + 1) nwrite + 1 := by
  have step : nwrite - (nread + 1) = nwrite - nread - 1 := by abel
  rw [count,count,step]
  exact toNat_sub_one fun zero => some (count_eq_zero.mp zero)

theorem count_unpush (some : nread ≠ nwrite) : count nread nwrite = count nread (nwrite - 1) + 1 := by
  have step : nwrite - 1 - nread = nwrite - nread - 1 := by abel
  rw [count,count,step]
  exact toNat_sub_one fun zero => some (count_eq_zero.mp zero)

theorem count_one (wide : 1 < 2 ^ w) (a : BitVec w) : count a (a + 1) = 1 := by
  rw [count,add_sub_cancel_left,toNat_one wide]

theorem place_ne {a i j : Nat} (less : i < j) (close : j < N) : (a + i) % N ≠ (a + j) % N := by
  intro equal
  have gap : N ∣ a + j - (a + i) := (Nat.modEq_iff_dvd' (by omega)).mp equal
  have := Nat.le_of_dvd (by omega) gap
  omega

theorem place_ahead (divides : N ∣ 2 ^ w) (nread nwrite : BitVec w) : nwrite.toNat % N = (nread.toNat + count nread nwrite) % N := by
  have ahead : nwrite.toNat = (nread.toNat + count nread nwrite) % 2 ^ w := toNat_ahead
  rw [ahead,Nat.mod_mod_of_dvd _ divides]

section
variable {a b c : BitVec w}

theorem count_append (room : count a b + count b c < 2 ^ w) : count a c = count a b + count b c := by
  have sum : c - a = (b - a) + (c - b) := by abel
  rw [count,count] at room
  rw [count,count,count,sum,BitVec.toNat_add,Nat.mod_eq_of_lt room]

theorem count_between (ordered : count a b ≤ count a c) : count b c = count a c - count a b := by
  have rest : c - b = (c - a) - (b - a) := by abel
  rw [count,rest,BitVec.toNat_sub_of_le (BitVec.le_def.mpr ordered),count,count]

theorem content_append (divides : N ∣ 2 ^ w) (room : count a b + count b c < 2 ^ w) :
    content N data a c = content N data a b ++ content N data b c := by
  rw [content,content,content,count_append room,List.range_add,List.map_append,List.map_map]
  refine congrArg _ (List.map_congr_left fun i _ => ?_)
  have place : (a.toNat + (count a b + i)) % N = (b.toNat + i) % N := by
    rw [← Nat.add_assoc,Nat.add_mod _ i,← place_ahead divides a b,← Nat.add_mod]
  simp only [Function.comp_apply,place]

/-- A store at a counter ahead does not change what is behind it. -/
theorem content_update (divides : N ∣ 2 ^ w) (small : N < 2 ^ w) (room : count a b + count b c < N) (x : α) :
    content N (Function.update data (c.toNat % N) x) a b = content N data a b := by
  refine List.map_congr_left fun i member => ?_
  have close : i < count a b + count b c := Nat.lt_add_right _ (List.mem_range.mp member)
  rw [place_ahead divides a c,count_append (by omega : count a b + count b c < 2 ^ w),
    Function.update_of_ne (place_ne close room)]

end

theorem content_one (wide : 1 < 2 ^ w) (data : Nat → α) (a : BitVec w) : content N data a (a + 1) = [data (a.toNat % N)] := by
  rw [content,count_one wide]
  simp

theorem content_push (divides : N ∣ 2 ^ w) (small : N < 2 ^ w) (room : count nread nwrite < N) (x : α) :
    content N (Function.update data (nwrite.toNat % N) x) nread (nwrite + 1) = content N data nread nwrite ++ [x] := by
  have one := count_one (by omega : 1 < 2 ^ w) nwrite
  have here : count nwrite nwrite = 0 := count_eq_zero.mpr rfl
  rw [content_append (b := nwrite) divides (by omega),content_update (b := nwrite) divides small (by omega),
    content_one (by omega : 1 < 2 ^ w),Function.update_self]

theorem content_pop (divides : N ∣ 2 ^ w) (some : nread ≠ nwrite) :
    content N data nread nwrite = data (nread.toNat % N) :: content N data (nread + 1) nwrite := by
  have bound : count nread nwrite < 2 ^ w := BitVec.isLt _
  have less := count_pop some
  have one := count_one (by omega : 1 < 2 ^ w) nread
  rw [content_append (b := nread + 1) divides (by omega),content_one (by omega : 1 < 2 ^ w),List.singleton_append]

theorem content_unpush (divides : N ∣ 2 ^ w) (some : nread ≠ nwrite) :
    content N data nread nwrite = content N data nread (nwrite - 1) ++ [data ((nwrite - 1).toNat % N)] := by
  have bound : count nread nwrite < 2 ^ w := BitVec.isLt _
  have less := count_unpush some
  have one := count_one (by omega : 1 < 2 ^ w) (nwrite - 1)
  have last := content_one (N := N) (by omega : 1 < 2 ^ w) data (nwrite - 1)
  rw [sub_add_cancel] at one last
  rw [content_append (b := nwrite - 1) divides (by omega),last]

end Osce.Lib.Ring
