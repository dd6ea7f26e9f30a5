import Mathlib

/-!
Moves and fills of memory, as string.c, ulib.c and x86.h make them, over the bytes that a
32-bit pointer can reach. A range is given by its first byte and its length, and pointers
wrap around.
-/
namespace Osce.Strings
open Function

abbrev Memory := BitVec 32 → UInt8

/-- `while(n-- > 0) *d++ = *s++;` -/
def copyUp (m : Memory) (d s : BitVec 32) : Nat → Memory
  | 0 => m
  | n+1 => copyUp (Function.update m d (m s)) (d + 1) (s + 1) n

/-- `while(n-- > 0) *--d = *--s;` -/
def copyDown (m : Memory) (d s : BitVec 32) : Nat → Memory
  | 0 => m
  | n+1 => copyDown (Function.update m (d - 1) (m (s - 1))) (d - 1) (s - 1) n

/-- `memmove` of string.c. -/
def memmove (m : Memory) (dst src n : BitVec 32) : Memory :=
  if src < dst ∧ src + n > dst then copyDown m (dst + n) (src + n) n.toNat else copyUp m dst src n.toNat

/-- `memmove` of ulib.c, whose `n` is an `int`. -/
def Ulib.memmove (m : Memory) (dst src n : BitVec 32) : Memory := copyUp m dst src n.toInt.toNat

/-- The former contents of the source in the place of the destination. -/
def moved (m : Memory) (dst src n : BitVec 32) : Memory := fun a => if a - dst < n then m (src + (a - dst)) else m a

def Repeats (m : Memory) (src n period : BitVec 32) : Prop :=
  ∀ i, period ≤ i → i < n → m (src + i) = m (src + (i - period))

section
variable {m : Memory} {dst src n : BitVec 32}

theorem copyUp_succ (m : Memory) (d s : BitVec 32) (n : Nat) :
    copyUp m d s (n + 1) = update (copyUp m d s n) (d + BitVec.ofNat 32 n) (copyUp m d s n (s + BitVec.ofNat 32 n)) := by
  induction n generalizing m d s with
  | zero => simp [copyUp]
  | succ n ih =>
    have next (p : BitVec 32) : p + 1 + BitVec.ofNat 32 n = p + BitVec.ofNat 32 (n + 1) := by bv_omega
    rw [copyUp,ih,next,next]
    rfl

theorem copyUp_outside {n : Nat} (small : n ≤ 2 ^ 32) {a : BitVec 32} (outside : n ≤ (a - dst).toNat) : copyUp m dst src n a = m a := by
  induction n with
  | zero => rfl
  | succ n ih =>
    rw [copyUp_succ,update_of_ne (by bv_omega)]
    exact ih (by omega) (by omega)

theorem copyUp_inside {n : Nat} (small : n ≤ 2 ^ 32) {i : BitVec 32} (inside : i.toNat < n) : copyUp m dst src n (dst + i) =
    if dst - src ≤ i ∧ dst ≠ src then copyUp m dst src n (src + i) else m (src + i) := by
  induction n with
  | zero => omega
  | succ n ih =>
    rw [copyUp_succ]
    by_cases last : i.toNat = n
    · have isLast : BitVec.ofNat 32 n = i := by bv_omega
      rw [isLast,update_self]
      split
      · rw [update_of_ne (by bv_omega)]
      · rename_i early
        by_cases same : dst = src
        · subst same
          exact copyUp_outside (by omega) (by bv_omega)
        · exact copyUp_outside (by omega) (by bv_omega)
    · rw [update_of_ne (by bv_omega),ih (by omega) (by omega)]
      split
      · rw [update_of_ne (by bv_omega)]
      · rfl

/-- Copying upwards is a move exactly where the source repeats itself with the distance of the two ranges, as it does if the
    destination is not in the source. -/
theorem copyUp_iff : copyUp m dst src n.toNat = moved m dst src n ↔ Repeats m src n (dst - src) := by
  have small : n.toNat ≤ 2 ^ 32 := Nat.le_of_lt n.isLt
  have moves (i : BitVec 32) (inside : i < n) : moved m dst src n (dst + i) = m (src + i) := by
    have offset : dst + i - dst = i := by bv_omega
    rw [moved,offset,if_pos inside]
  constructor
  · intro same i after inside
    by_cases still : dst = src
    · rw [still,BitVec.sub_self,BitVec.sub_zero]
    have back : src + i = dst + (i - (dst - src)) := by bv_omega
    calc m (src + i) = copyUp m dst src n.toNat (dst + i) := by rw [same,moves i inside]
      _ = copyUp m dst src n.toNat (src + i) := by rw [copyUp_inside small inside,if_pos ⟨after,still⟩]
      _ = m (src + (i - (dst - src))) := by rw [same,back,moves _ (by bv_omega)]
  · intro repeats
    have inside (k : Nat) (i : BitVec 32) (isK : i.toNat = k) (inside : i < n) : copyUp m dst src n.toNat (dst + i) = m (src + i) := by
      induction k using Nat.strongRecOn generalizing i with
      | ind k ih =>
        rw [copyUp_inside small inside]
        split
        · rename_i later
          have back : src + i = dst + (i - (dst - src)) := by bv_omega
          have before := ih _ (by bv_omega) (i - (dst - src)) rfl (by bv_omega)
          rw [repeats i later.1 inside,← before,← back]
        · rfl
    funext a
    by_cases within : a - dst < n
    · have place : dst + (a - dst) = a := by bv_omega
      have here := inside _ (a - dst) rfl within
      rw [place] at here
      rw [here,moved,if_pos within]
    · rw [moved,if_neg within]
      exact copyUp_outside small (by bv_omega)

/-- Copying downwards is a move if the source does not begin in the destination. -/
theorem copyDown_eq {n : Nat} (above : n + (dst - src).toNat ≤ 2 ^ 32) (a : BitVec 32) :
    copyDown m (dst + BitVec.ofNat 32 n) (src + BitVec.ofNat 32 n) n a = if (a - dst).toNat < n then m (src + (a - dst)) else m a := by
  induction n generalizing m with
  | zero => simp [copyDown]
  | succ n ih =>
    have before (p : BitVec 32) : p + BitVec.ofNat 32 (n + 1) - 1 = p + BitVec.ofNat 32 n := by bv_omega
    rw [copyDown,before,before,ih (by omega)]
    by_cases inside : (a - dst).toNat < n
    · rw [if_pos inside,if_pos (by omega),update_of_ne (by bv_omega)]
    · rw [if_neg inside]
      by_cases last : (a - dst).toNat = n
      · have isLast : a = dst + BitVec.ofNat 32 n := by bv_omega
        have offset : a - dst = BitVec.ofNat 32 n := by bv_omega
        rw [if_pos (by omega),offset,isLast,update_self]
      · rw [if_neg (by omega),update_of_ne (by bv_omega)]

theorem memmove_eq (source : src.toNat + n.toNat ≤ 2 ^ 32) (destination : dst.toNat + n.toNat ≤ 2 ^ 32) :
    memmove m dst src n = moved m dst src n := by
  rw [memmove]
  split
  · rename_i overlap
    have length : n = BitVec.ofNat 32 n.toNat := (BitVec.ofNat_toNat 32 n).symm
    funext a
    have down := @copyDown_eq m dst src n.toNat (by bv_omega) a
    rw [← length] at down
    exact down
  · rename_i apart
    rw [copyUp_iff]
    intro i after inside
    by_cases still : dst = src
    · rw [still,BitVec.sub_self,BitVec.sub_zero]
    · bv_omega

/-- What is there allows the `memmove` of ulib.c to copy upwards; a length above `INT_MAX` copies nothing. -/
def Movable (m : Memory) (dst src n : BitVec 32) : Prop :=
  if 0 ≤ n.toInt then Repeats m src n (dst - src) else ∀ i, i < n → m (dst + i) = m (src + i)

theorem ulib_memmove_iff : Ulib.memmove m dst src n = moved m dst src n ↔ Movable m dst src n := by
  rw [Ulib.memmove,Movable]
  split
  · rename_i positive
    rw [show n.toInt.toNat = n.toNat by rw [BitVec.toInt] at *; split at * <;> omega]
    exact copyUp_iff
  · rename_i negative
    rw [show n.toInt.toNat = 0 by omega,copyUp]
    constructor
    · intro same i inside
      have here := congrFun same (dst + i)
      rwa [moved,show dst + i - dst = i by bv_omega,if_pos inside] at here
    · intro same
      funext a
      rw [moved]
      split
      · rename_i within
        rw [← same _ within,show dst + (a - dst) = a by bv_omega]
      · rfl

end

/-- `memmove` of string.c moves every range, and that of ulib.c, and so their agreement, exactly those that can be copied upwards. -/
theorem memmove_overlapping (m : Memory) (dst src n : BitVec 32) (source : src.toNat + n.toNat ≤ 2 ^ 32)
    (destination : dst.toNat + n.toNat ≤ 2 ^ 32) :
    memmove m dst src n = moved m dst src n ∧ (Ulib.memmove m dst src n = moved m dst src n ↔ Movable m dst src n) ∧
      (Ulib.memmove m dst src n = memmove m dst src n ↔ Movable m dst src n) := by
  have kernel : memmove m dst src n = moved m dst src n := memmove_eq source destination
  refine ⟨kernel,ulib_memmove_iff,?_⟩
  rw [kernel]
  exact ulib_memmove_iff

theorem memmove_overlapping_front : Ulib.memmove (fun a => ⟨a.setWidth 8⟩) 100 101 3 = memmove (fun a => ⟨a.setWidth 8⟩) 100 101 3 := by
  refine (memmove_overlapping _ 100 101 3 (by decide) (by decide)).2.2.mpr ?_
  rw [Movable,if_pos (by decide)]
  intro i after inside
  bv_omega

/-- The first byte is copied over the second before that is read. -/
theorem ulib_memmove_smears : ∃ m : Memory, Ulib.memmove m 101 100 2 ≠ moved m 101 100 2 := by
  refine ⟨fun a => if a = 100 then 1 else 0,fun same => ?_⟩
  have here := congrFun same 102
  revert here
  decide

def low (c : BitVec 32) : UInt8 := ⟨c.setWidth 8⟩

/-- `rep stosb` -/
def stosb (m : Memory) (addr data : BitVec 32) : Nat → Memory
  | 0 => m
  | cnt+1 => stosb (Function.update m addr (low data)) (addr + 1) data cnt

def storel (m : Memory) (addr data : BitVec 32) : Memory :=
  Function.update (Function.update (Function.update (Function.update m addr (low data)) (addr + 1) (low (data >>> 8)))
    (addr + 2) (low (data >>> 16))) (addr + 3) (low (data >>> 24))

/-- `rep stosl` -/
def stosl (m : Memory) (addr data : BitVec 32) : Nat → Memory
  | 0 => m
  | cnt+1 => stosl (storel m addr data) (addr + 4) data cnt

/-- The word that `memset` makes of a byte. -/
def spread (c : BitVec 32) : BitVec 32 := c <<< 24 ||| c <<< 16 ||| c <<< 8 ||| c

def memset (m : Memory) (dst c n : BitVec 32) : Memory :=
  if dst.srem 4 = 0 ∧ n % 4 = 0 then stosl m dst (spread (c &&& 0xFF)) (n / 4).toNat else stosb m dst c n.toNat

def filled (m : Memory) (dst : BitVec 32) (b : UInt8) (n : Nat) : Memory := fun a => if (a - dst).toNat < n then b else m a

theorem filled_one (m : Memory) (dst : BitVec 32) (b : UInt8) : update m dst b = filled m dst b 1 := by
  funext a
  by_cases same : a = dst
  · rw [same,update_self,filled,if_pos (by bv_omega)]
  · rw [update_of_ne same,filled,if_neg (by bv_omega)]

theorem filled_filled (m : Memory) (dst : BitVec 32) (b : UInt8) {k n : Nat} (small : k + n ≤ 2 ^ 32) :
    filled (filled m dst b k) (dst + BitVec.ofNat 32 k) b n = filled m dst b (k + n) := by
  funext a
  simp only [filled]
  by_cases first : (a - dst).toNat < k
  · rw [if_pos first,ite_self,if_pos (by omega)]
  · rw [if_neg first]
    by_cases second : (a - dst).toNat < k + n
    · rw [if_pos second,if_pos (by bv_omega)]
    · rw [if_neg second,if_neg (by bv_omega)]

theorem stosb_eq (m : Memory) (addr data : BitVec 32) {cnt : Nat} (small : cnt ≤ 2 ^ 32) :
    stosb m addr data cnt = filled m addr (low data) cnt := by
  induction cnt generalizing m addr with
  | zero => rfl
  | succ cnt ih =>
    rw [stosb,ih _ _ (by omega),filled_one,show addr + 1 = addr + BitVec.ofNat 32 1 from rfl,filled_filled _ _ _ (by omega),Nat.add_comm]

theorem storel_eq (m : Memory) (addr data : BitVec 32) {b : UInt8} (first : low data = b) (second : low (data >>> 8) = b)
    (third : low (data >>> 16) = b) (fourth : low (data >>> 24) = b) : storel m addr data = filled m addr b 4 := by
  rw [storel,first,second,third,fourth]
  funext a
  simp only [filled,update_apply]
  by_cases inside : (a - addr).toNat < 4
  · rw [if_pos inside]
    have cases : a = addr ∨ a = addr + 1 ∨ a = addr + 2 ∨ a = addr + 3 := by bv_omega
    simp only [ite_eq_left_iff]
    grind
  · rw [if_neg inside,if_neg (by bv_omega),if_neg (by bv_omega),if_neg (by bv_omega),if_neg (by bv_omega)]

theorem low_spread : ∀ b : BitVec 8, low (spread (b.setWidth 32)) = ⟨b⟩ ∧ low (spread (b.setWidth 32) >>> 8) = ⟨b⟩ ∧
    low (spread (b.setWidth 32) >>> 16) = ⟨b⟩ ∧ low (spread (b.setWidth 32) >>> 24) = ⟨b⟩ := by
  decide +kernel

theorem stosl_eq (m : Memory) (addr : BitVec 32) (b : BitVec 8) {cnt : Nat} (small : 4 * cnt ≤ 2 ^ 32) :
    stosl m addr (spread (b.setWidth 32)) cnt = filled m addr ⟨b⟩ (4 * cnt) := by
  induction cnt generalizing m addr with
  | zero => rfl
  | succ cnt ih =>
    obtain ⟨first,second,third,fourth⟩ := low_spread b
    rw [stosl,ih _ _ (by omega),storel_eq _ _ _ first second third fourth,show addr + 4 = addr + BitVec.ofNat 32 4 from rfl,
      filled_filled _ _ _ (by omega),Nat.mul_succ,Nat.add_comm]

/-- `memset` sets the bytes of the range to the low byte of `c`, on both paths. -/
theorem memset_fills (m : Memory) (dst c n : BitVec 32) : memset m dst c n = filled m dst (low c) n.toNat := by
  rw [memset]
  split
  · rename_i words
    have masked : c &&& 0xFF = (c.setWidth 8).setWidth 32 := by
      apply BitVec.eq_of_toNat_eq
      have mask := Nat.and_two_pow_sub_one_eq_mod c.toNat 8
      simp only [BitVec.toNat_and,BitVec.toNat_setWidth]
      exact mask.trans (Nat.mod_eq_of_lt (by omega)).symm
    have length : 4 * (n / 4).toNat = n.toNat := by
      have whole : n.toNat % 4 = 0 := congrArg BitVec.toNat words.2
      rw [BitVec.toNat_udiv,show BitVec.toNat 4 = 4 from rfl]
      omega
    have bound := n.isLt
    rw [masked,stosl_eq _ _ _ (by omega),length]
    rfl
  · exact stosb_eq _ _ _ (Nat.le_of_lt n.isLt)

end Osce.Strings
