import Osce.Fs.Code
import Osce.Log.Code

/-!
The state that the programs of `fs.c` act on, and what is read off it: the marks of the
bitmap, the inodes on disk and in the cache, the block that a slot of an inode holds,
and the bytes of a file. The disk is the flat map of sectors that the buffer cache
shows.
-/
namespace Osce.Fs
open Osce.Lib Osce.Layout Osce.Log Function
open Bytes (word setWord word_zero word_setWord_same word_setWord_ne)

structure Device where
  read : Nat → Option (List UInt8)
  write : List UInt8 → Option Nat

/-- The log in memory. `logged` is history: the sectors passed to `log_write`, newest first. -/
structure Journal where
  log : LogArea
  lh : List Nat
  outstanding : Int
  logged : List Nat

def Journal.write (j : Journal) (sector : Nat) : Journal :=
  { j with lh := absorb j.lh sector, logged := sector :: j.logged }

structure Kernel where
  blocks : Nat → Block
  busy : Nat → Bool
  icache : Entry → Inode
  devsw : Nat → Option Device
  journal : Journal

def device (devsw : Nat → Option Device) (major : BitVec 16) : Option Device :=
  if major.toInt < 0 ∨ major.toInt ≥ NDEV then none else devsw major.toNat

namespace Kernel

def setBlock (k : Kernel) (sector : Nat) (data : Block) : Kernel :=
  { k with blocks := Function.update k.blocks sector data }
def setBusy (k : Kernel) (sector : Nat) (v : Bool) : Kernel := { k with busy := Function.update k.busy sector v }
def setInode (k : Kernel) (e : Entry) (ip : Inode) : Kernel := { k with icache := Function.update k.icache e ip }

def handle : Handler FsSig Kernel
  | .bread s, k => if k.busy s then .error .sleep else .ok (k.blocks s,k.setBusy s true)
  | .store s data, k => .ok ((),k.setBlock s data)
  | .log_write s, k =>
    if k.journal.lh.length ≥ LOGSIZE ∨ k.journal.lh.length + 1 ≥ k.journal.log.size then .error (.panic "too big a transaction")
    else if k.journal.outstanding < 1 then .error (.panic "log_write outside of trans")
    else .ok ((),{ k with journal := k.journal.write s })
  | .brelse s, k => if k.busy s then .ok ((),k.setBusy s false) else .error (.panic "brelse")
  | .inode e, k => .ok (k.icache e,k)
  | .modify e f, k => .ok ((),k.setInode e { k.icache e with din := f (k.icache e).din })
  | .devread major n, k => .ok ((device k.devsw major).bind fun d => d.read n,k)
  | .devwrite major src, k => .ok ((device k.devsw major).bind fun d => d.write src,k)
  | .panic message, _ => .error (.panic message)

end Kernel

def dataStart (sb : Superblock) : Nat := sb.ninodes / IPB + 3 + (sb.size / BPB + 1)

section
variable {sb : Superblock}

theorem one_lt_IBLOCK (i : Nat) : 1 < IBLOCK i := Nat.le_add_left 2 _

theorem IBLOCK_lt {i : Nat} (inside : i < sb.ninodes) : IBLOCK i < sb.ninodes / IPB + 3 := by
  have := Nat.div_le_div_right (c := IPB) inside.le
  simp only [IBLOCK]
  omega

theorem le_BBLOCK (sb : Superblock) (b : Nat) : sb.ninodes / IPB + 3 ≤ BBLOCK b sb.ninodes := by
  rw [BBLOCK,Nat.add_assoc]
  exact Nat.le_add_left _ _

theorem BBLOCK_lt {b : Nat} (inside : b < sb.size) : BBLOCK b sb.ninodes < dataStart sb := by
  have := Nat.div_le_div_right (c := BPB) inside.le
  simp only [BBLOCK,dataStart]
  omega

theorem IBLOCK_lt_dataStart {i : Nat} (inside : i < sb.ninodes) : IBLOCK i < dataStart sb := by
  have := IBLOCK_lt inside
  rw [dataStart]
  exact Nat.lt_of_lt_of_le this (Nat.le_add_right _ _)

theorem IBLOCK_ne_BBLOCK {i : Nat} (inside : i < sb.ninodes) (b : Nat) : IBLOCK i ≠ BBLOCK b sb.ninodes := by
  have := IBLOCK_lt inside
  have := le_BBLOCK sb b
  omega

theorem one_ne_BBLOCK (b : Nat) : 1 ≠ BBLOCK b sb.ninodes := by
  have := le_BBLOCK sb b
  have := Nat.le_add_left 3 (sb.ninodes / IPB)
  omega

theorem three_lt_dataStart (sb : Superblock) : 3 < dataStart sb := by
  rw [dataStart]
  have := Nat.le_add_left 3 (sb.ninodes / IPB)
  have := Nat.le_add_left 1 (sb.size / BPB)
  omega

end

def marked (sb : Superblock) (blocks : Nat → Block) (b : Nat) : Bool := (blocks (BBLOCK b sb.ninodes)).bit (b % BPB)

theorem firstClear_some {bp : Block} {limit bi : Nat} (found : firstClear bp limit = some bi) :
    bi < limit ∧ bp.bit bi = false ∧ ∀ j, j < bi → bp.bit j = true := by
  obtain ⟨clear,member,earlier⟩ := List.find?_range_eq_some.mp found
  exact ⟨List.mem_range.mp member,by simpa using clear,fun j low => by simpa using earlier j low⟩

theorem firstClear_none {bp : Block} {limit : Nat} (found : firstClear bp limit = none) (j : Nat) (low : j < limit) :
    bp.bit j = true := by
  simpa using List.find?_eq_none.mp found j (List.mem_range.mpr low)

section
variable {sb : Superblock} {blocks : Nat → Block}

theorem marked_block (q bi : Nat) (inside : bi < BPB) :
    marked sb blocks (BPB * q + bi) = (blocks (BBLOCK (BPB * q) sb.ninodes)).bit bi := by
  have quotient : (BPB * q + bi) / BPB = BPB * q / BPB := by
    simp only [BPB,BSIZE] at *
    omega
  have remainder : (BPB * q + bi) % BPB = bi := by
    simp only [BPB,BSIZE] at *
    omega
  rw [marked,BBLOCK,quotient,remainder]
  rfl

theorem marked_update {x : Nat} {v : Block} {b : Nat} (other : BBLOCK b sb.ninodes ≠ x) :
    marked sb (update blocks x v) b = marked sb blocks b := by
  rw [marked,update_of_ne other]
  rfl

theorem marked_data {x : Nat} (v : Block) (data : dataStart sb ≤ x) {b : Nat} (inside : b < sb.size) :
    marked sb (update blocks x v) b = marked sb blocks b := by
  have := BBLOCK_lt inside
  exact marked_update (by omega)

theorem marked_inode {i : Nat} (v : Block) (inside : i < sb.ninodes) (b : Nat) :
    marked sb (update blocks (IBLOCK i) v) b = marked sb blocks b :=
  marked_update (IBLOCK_ne_BBLOCK inside b).symm

theorem same_bit {b c : Nat} (sameBlock : BBLOCK c sb.ninodes = BBLOCK b sb.ninodes) : b % BPB = c % BPB ↔ c = b := by
  have quotient : c / BPB = b / BPB := by
    simp only [BBLOCK] at sameBlock
    omega
  constructor
  · intro remainder
    rw [← Nat.div_add_mod c BPB,← Nat.div_add_mod b BPB,quotient,remainder]
  · rintro rfl
    rfl

theorem marked_setBit (b c : Nat) :
    marked sb (update blocks (BBLOCK b sb.ninodes) ((blocks (BBLOCK b sb.ninodes)).setBit (b % BPB))) c =
      (decide (c = b) || marked sb blocks c) := by
  by_cases sameBlock : BBLOCK c sb.ninodes = BBLOCK b sb.ninodes
  · have inside : b % BPB < 8 * BSIZE := by
      simp only [BPB,BSIZE]
      omega
    rw [marked,sameBlock,update_self,Bytes.bit_setBit _ _ _ inside,marked,sameBlock]
    simp only [same_bit sameBlock]
  · have other : c ≠ b := by
      rintro rfl
      exact sameBlock rfl
    rw [marked_update sameBlock]
    simp [other]

end

def diskInode (blocks : Nat → Block) (i : Nat) : Dinode := getDinode (blocks (IBLOCK i)) (i % IPB)

section
variable {blocks : Nat → Block}

theorem disk_update {x i : Nat} {v : Block} (other : IBLOCK i ≠ x) :
    diskInode (update blocks x v) i = diskInode blocks i := by
  rw [diskInode,update_of_ne other]
  rfl

theorem disk_put_same (i : Nat) {d : Dinode} (fits : d.Fits) :
    diskInode (update blocks (IBLOCK i) (putDinode (blocks (IBLOCK i)) (i % IPB) d)) i = d := by
  rw [diskInode,update_self]
  exact getDinode_putDinode _ (Nat.mod_lt _ (by decide)) fits

theorem disk_put_ne {i j : Nat} (different : j ≠ i) (d : Dinode) :
    diskInode (update blocks (IBLOCK i) (putDinode (blocks (IBLOCK i)) (i % IPB) d)) j = diskInode blocks j := by
  by_cases sameBlock : IBLOCK j = IBLOCK i
  · have slots : j % IPB ≠ i % IPB := by
      simp only [IBLOCK,IPB,BSIZE] at sameBlock ⊢
      omega
    rw [diskInode,sameBlock,update_self,getDinode_putDinode_ne _ slots,diskInode,sameBlock]
  · exact disk_update sameBlock

end

/-- The block that a slot of an inode holds, 0 if none: the direct blocks, then the
    indirect block, then its entries. -/
def slotIn (entry : Nat → Nat) (d : Dinode) (r : Nat) : Nat :=
  if r ≤ NDIRECT then d.addrs r
  else if d.addrs NDIRECT = 0 then 0
  else entry (r - NDIRECT - 1)

/-- The same where the entries are read from the indirect block. -/
def slot (blocks : Nat → Block) (d : Dinode) (r : Nat) : Nat := slotIn (word (blocks (d.addrs NDIRECT))) d r

def slotOf (bn : Nat) : Nat := if bn < NDIRECT then bn else bn + 1

def blockOf (blocks : Nat → Block) (d : Dinode) (bn : Nat) : Nat := slot blocks d (slotOf bn)

/-- The `j`-th byte of the content; a block that is missing reads as zeros. -/
def byteAt (blocks : Nat → Block) (d : Dinode) (j : Nat) : UInt8 :=
  if blockOf blocks d (j / BSIZE) = 0 then 0 else (blocks (blockOf blocks d (j / BSIZE))).get (j % BSIZE)

def contents (blocks : Nat → Block) (d : Dinode) : List UInt8 := (List.range d.size).map (byteAt blocks d)

end Osce.Fs
