import Mathlib

/-!
Fixed-size byte arrays as a program sees them in memory: runs of bytes are copied
in and out (`read`, `write`), numbers stand in little-endian order (`leBytes`,
`leNat`), and single bits are tested, set and cleared with a mask (`bit`,
`setBit`, `clearBit`).
-/
namespace Osce.Lib

/-- The number that the bytes spell, least significant byte first. -/
def leNat : List UInt8 → Nat
  | [] => 0
  | b :: rest => b.toNat + 256 * leNat rest

/-- The lowest `k` bytes of a number, least significant first. -/
def leBytes : Nat → Nat → List UInt8
  | 0, _ => []
  | k+1, v => UInt8.ofNat v :: leBytes k (v / 256)

@[simp] theorem length_leBytes (k v : Nat) : (leBytes k v).length = k := by
  induction k generalizing v with
  | zero => rfl
  | succ k ih => simp [leBytes,ih]

theorem leNat_lt (l : List UInt8) : leNat l < 256 ^ l.length := by
  induction l with
  | nil => simp [leNat]
  | cons b rest ih =>
    have small := b.toNat_lt
    simp only [leNat,List.length_cons,pow_succ]
    omega

theorem leNat_leBytes (k v : Nat) : leNat (leBytes k v) = v % 256 ^ k := by
  induction k generalizing v with
  | zero => simp [leBytes,leNat,Nat.mod_one]
  | succ k ih =>
    simp only [leBytes,leNat,ih]
    have split : v % 256 ^ (k+1) = v % 256 + 256 * (v / 256 % 256 ^ k) := by
      rw [pow_succ,Nat.mul_comm,Nat.mod_mul]
    rw [split]
    simp

theorem leNat_leBytes_of_lt {k v : Nat} (fits : v < 256 ^ k) : leNat (leBytes k v) = v := by
  rw [leNat_leBytes,Nat.mod_eq_of_lt fits]

@[ext] structure Bytes (n : Nat) where
  data : Fin n → UInt8

namespace Bytes

variable {n : Nat}

/-- The byte at a position; past the end there is none, and 0 stands for it. -/
def get (b : Bytes n) (i : Nat) : UInt8 := if h : i < n then b.data ⟨i,h⟩ else 0

def zero (n : Nat) : Bytes n := ⟨fun _ => 0⟩

def read (b : Bytes n) (off len : Nat) : List UInt8 := (List.range len).map fun i => b.get (off + i)

/-- The array with a run of bytes copied over it. -/
def write (b : Bytes n) (off : Nat) (src : List UInt8) : Bytes n :=
  ⟨fun i => if off ≤ i.val ∧ i.val < off + src.length then src.getD (i.val - off) 0 else b.data i⟩

theorem get_past (b : Bytes n) {i : Nat} (past : n ≤ i) : b.get i = 0 := by
  simp [get,Nat.not_lt.mpr past]

@[simp] theorem get_zero (i : Nat) : (zero n).get i = 0 := by
  simp [get,zero]

theorem get_write (b : Bytes n) (off : Nat) (src : List UInt8) (i : Nat) (inside : i < n) :
    (b.write off src).get i = if off ≤ i ∧ i < off + src.length then src.getD (i - off) 0 else b.get i := by
  simp [get,write,inside]

theorem get_write_other (b : Bytes n) (off : Nat) (src : List UInt8) (i : Nat)
    (outside : i < off ∨ off + src.length ≤ i) : (b.write off src).get i = b.get i := by
  by_cases inside : i < n
  · rw [get_write _ _ _ _ inside,if_neg (by omega)]
  · rw [get_past _ (by omega),get_past _ (by omega)]

@[simp] theorem length_read (b : Bytes n) (off len : Nat) : (b.read off len).length = len := by
  simp [read]

theorem getElem_read (b : Bytes n) (off len i : Nat) (inside : i < (b.read off len).length) :
    (b.read off len)[i] = b.get (off + i) := by
  simp [read]

theorem read_congr {a b : Bytes n} {off len : Nat} (same : ∀ i, i < len → a.get (off + i) = b.get (off + i)) :
    a.read off len = b.read off len := by
  unfold read
  apply List.map_congr_left
  intro i member
  exact same i (List.mem_range.mp member)

theorem read_write_same (b : Bytes n) (off : Nat) (src : List UInt8) (fits : off + src.length ≤ n) :
    (b.write off src).read off src.length = src := by
  apply List.ext_getElem
  · simp
  · intro i h1 h2
    rw [getElem_read,get_write _ _ _ _ (by omega),if_pos (by omega)]
    simp [List.getD_eq_getElem?_getD,List.getElem?_eq_getElem h2]

theorem read_write_other (b : Bytes n) (off : Nat) (src : List UInt8) (off' len : Nat)
    (apart : off' + len ≤ off ∨ off + src.length ≤ off') : (b.write off src).read off' len = b.read off' len := by
  apply read_congr
  intro i inside
  exact get_write_other _ _ _ _ (by omega)

theorem read_zero (off len : Nat) : (zero n).read off len = List.replicate len 0 := by
  apply List.ext_getElem
  · simp
  · intro i h1 h2
    simp [getElem_read]

def word (b : Bytes n) (i : Nat) : Nat := leNat (b.read (4 * i) 4)
def setWord (b : Bytes n) (i v : Nat) : Bytes n := b.write (4 * i) (leBytes 4 v)

theorem word_lt (b : Bytes n) (i : Nat) : b.word i < 2 ^ 32 := by
  have bound := leNat_lt (b.read (4 * i) 4)
  simpa [word] using bound

theorem word_setWord_same (b : Bytes n) {i v : Nat} (inside : 4 * i + 4 ≤ n) (fits : v < 2 ^ 32) :
    (b.setWord i v).word i = v := by
  have back := read_write_same b (4 * i) (leBytes 4 v) (by rw [length_leBytes]; exact inside)
  rw [length_leBytes] at back
  rw [word,setWord,back]
  exact leNat_leBytes_of_lt (by simpa using fits)

theorem word_setWord_ne (b : Bytes n) {i j : Nat} (v : Nat) (other : j ≠ i) : (b.setWord i v).word j = b.word j := by
  rw [word,setWord,read_write_other]
  · rfl
  · simp only [length_leBytes]
    omega

@[simp] theorem word_zero (i : Nat) : (zero n).word i = 0 := by
  simp only [word,read_zero]
  rfl

/-- The mask of a bit within its byte. -/
def mask (i : Nat) : UInt8 := UInt8.ofNat (2 ^ (i % 8))

def bit (b : Bytes n) (i : Nat) : Bool := b.get (i / 8) &&& mask i != 0
def setBit (b : Bytes n) (i : Nat) : Bytes n := b.write (i / 8) [b.get (i / 8) ||| mask i]

theorem mask_toNat (i : Nat) : (mask i).toNat = 2 ^ (i % 8) := by
  have small : 2 ^ (i % 8) < 2 ^ 8 := Nat.pow_lt_pow_right (by omega) (Nat.mod_lt _ (by omega))
  simp only [mask,UInt8.toNat_ofNat']
  exact Nat.mod_eq_of_lt small

theorem and_mask (x : UInt8) (i : Nat) : (x &&& mask i != 0) = x.toNat.testBit (i % 8) := by
  have conj : (x &&& mask i).toNat = (x.toNat.testBit (i % 8)).toNat * 2 ^ (i % 8) := by
    rw [UInt8.toNat_and,mask_toNat,Nat.and_two_pow]
  have positive : 0 < 2 ^ (i % 8) := Nat.two_pow_pos _
  cases set : x.toNat.testBit (i % 8) with
  | true =>
    rw [set] at conj
    simp only [Bool.toNat_true,Nat.one_mul] at conj
    rw [bne_iff_ne]
    intro zero
    rw [zero] at conj
    exact absurd conj.symm positive.ne'
  | false =>
    rw [set] at conj
    simp only [Bool.toNat_false,Nat.zero_mul] at conj
    have : x &&& mask i = 0 := UInt8.toNat_inj.mp (by simpa using conj)
    simp [this]

theorem bit_eq (b : Bytes n) (i : Nat) : b.bit i = (b.get (i / 8)).toNat.testBit (i % 8) := and_mask _ _

theorem bit_setBit (b : Bytes n) (i j : Nat) (inside : i < 8 * n) :
    (b.setBit i).bit j = (decide (i = j) || b.bit j) := by
  simp only [bit_eq,setBit]
  by_cases sameByte : j / 8 = i / 8
  · rw [sameByte,get_write _ _ _ _ (by omega),if_pos (by simp)]
    simp only [Nat.sub_self,List.getD_cons_zero,UInt8.toNat_or,Nat.testBit_or,mask_toNat,Nat.testBit_two_pow]
    by_cases same : i = j
    · subst same; simp
    · have : ¬ i % 8 = j % 8 := by omega
      simp [same,this]
  · rw [get_write_other _ _ _ _ (by simp only [List.length_singleton]; omega)]
    have : ¬ i = j := by rintro rfl; exact sameByte rfl
    simp [this]

end Bytes

end Osce.Lib
