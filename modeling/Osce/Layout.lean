import Osce.Lib.Bytes

/-!
The constants of `param.h`, `fs.h` and `stat.h` and the layout of the blocks of a
file system image: words, the superblock, inodes and directory entries as the
bytes that stand for them on disk.
-/
namespace Osce.Layout
open Osce.Lib
open Bytes (word setWord word_zero word_setWord_same word_setWord_ne)

def NOFILE : Nat := 16
def NFILE : Nat := 100
def NINODE : Nat := 50
def NDEV : Nat := 10
def ROOTDEV : Nat := 1
def MAXOPBLOCKS : Nat := 10
def LOGSIZE : Nat := MAXOPBLOCKS * 3
def NBUF : Nat := MAXOPBLOCKS * 3

theorem NINODE_pos : 0 < NINODE := by decide

def ROOTINO : Nat := 1
def BSIZE : Nat := 512
def NDIRECT : Nat := 12
def NINDIRECT : Nat := BSIZE / 4
def MAXFILE : Nat := NDIRECT + NINDIRECT
def IPB : Nat := BSIZE / 64
def BPB : Nat := BSIZE * 8
def DIRSIZ : Nat := 14

def IBLOCK (i : Nat) : Nat := i / IPB + 2
def BBLOCK (b ninodes : Nat) : Nat := b / BPB + ninodes / IPB + 3

abbrev Block := Bytes BSIZE

/-- The words from the `i`-th on overwritten by a list. -/
def setWords (b : Block) (i : Nat) : List Nat → Block
  | [] => b
  | v :: rest => setWords (setWord b i v) (i + 1) rest

theorem word_setWords_other (b : Block) (i : Nat) (values : List Nat) {j : Nat}
    (outside : j < i ∨ i + values.length ≤ j) : word (setWords b i values) j = word b j := by
  induction values generalizing b i with
  | nil => rfl
  | cons v rest ih =>
    simp only [List.length_cons] at outside
    rw [setWords,ih _ _ (by omega),word_setWord_ne _ _ (by omega)]

theorem word_setWords_at (b : Block) (i : Nat) (values : List Nat) (fits : ∀ v ∈ values, v < 2 ^ 32)
    (room : i + values.length ≤ NINDIRECT) (j : Nat) (inside : j < values.length) :
    word (setWords b i values) (i + j) = values[j] := by
  induction values generalizing b i j with
  | nil => simp at inside
  | cons v rest ih =>
    simp only [List.length_cons] at room inside
    rw [setWords]
    cases j with
    | zero =>
      rw [word_setWords_other _ _ _ (by omega)]
      exact word_setWord_same _ (by simp only [NINDIRECT,BSIZE] at *; omega) (fits v (by simp))
    | succ j =>
      have later := ih (setWord b i v) (i + 1) (fun t member => fits t (by simp [member])) (by omega) j (by omega)
      have shift : i + (j + 1) = i + 1 + j := by omega
      rw [shift,later]
      rfl

def half (b : Block) (i : Nat) : Nat := leNat (b.read (2 * i) 2)
def setHalf (b : Block) (i v : Nat) : Block := b.write (2 * i) (leBytes 2 v)

theorem half_setHalf_same (b : Block) {i v : Nat} (inside : i < 2 * NINDIRECT) (fits : v < 2 ^ 16) :
    half (setHalf b i v) i = v := by
  have room : 2 * i + (leBytes 2 v).length ≤ BSIZE := by
    simp only [NINDIRECT,BSIZE,length_leBytes] at *
    omega
  have back := Bytes.read_write_same b (2 * i) (leBytes 2 v) room
  rw [length_leBytes] at back
  rw [half,setHalf,back]
  exact leNat_leBytes_of_lt (by simpa using fits)

theorem half_setHalf_ne (b : Block) {i j : Nat} (v : Nat) (other : j ≠ i) : half (setHalf b i v) j = half b j := by
  rw [half,setHalf,Bytes.read_write_other]
  · rfl
  · simp only [length_leBytes]
    omega

theorem word_setHalf (b : Block) {i j : Nat} (v : Nat) (other : j ≠ i / 2) : word (setHalf b i v) j = word b j := by
  rw [word,setHalf,Bytes.read_write_other]
  · rfl
  · simp only [length_leBytes]
    omega

theorem half_setWord (b : Block) {i j : Nat} (v : Nat) (other : j / 2 ≠ i) : half (setWord b i v) j = half b j := by
  rw [half,setWord,Bytes.read_write_other]
  · rfl
  · simp only [length_leBytes]
    omega

theorem half_setWords (b : Block) (i : Nat) (values : List Nat) {j : Nat}
    (outside : j / 2 < i ∨ i + values.length ≤ j / 2) : half (setWords b i values) j = half b j := by
  induction values generalizing b i with
  | nil => rfl
  | cons v rest ih =>
    simp only [List.length_cons] at outside
    rw [setWords,ih _ _ (by omega),half_setWord _ _ (by omega)]

structure Superblock where
  size : Nat
  nblocks : Nat
  ninodes : Nat
  nlog : Nat
  deriving DecidableEq, Repr

def Superblock.ofBlock (b : Block) : Superblock := ⟨word b 0,word b 1,word b 2,word b 3⟩

def Superblock.toBlock (sb : Superblock) (b : Block) : Block := setWords b 0 [sb.size,sb.nblocks,sb.ninodes,sb.nlog]

/-- The type of an inode; a free one has type 0. -/
def T_DIR : BitVec 16 := 1
def T_FILE : BitVec 16 := 2
def T_DEV : BitVec 16 := 3

/-- On-disk inode structure. `addrs` is 0 past its last index `NDIRECT`. -/
@[ext] structure Dinode where
  type : BitVec 16
  major : BitVec 16
  minor : BitVec 16
  nlink : BitVec 16
  size : Nat
  addrs : Nat → Nat

def Dinode.zero : Dinode := ⟨0,0,0,0,0,fun _ => 0⟩

def Dinode.setAddr (d : Dinode) (k addr : Nat) : Dinode := { d with addrs := Function.update d.addrs k addr }

def Dinode.bare (d : Dinode) : Dinode := { d with addrs := fun _ => 0 }

/-- `size` and `addrs` are `uint`s. -/
structure Dinode.Fits (d : Dinode) : Prop where
  size : d.size < 2 ^ 32
  addrs : ∀ k, d.addrs k < 2 ^ 32
  past : ∀ k, NDIRECT < k → d.addrs k = 0

theorem Dinode.Fits.setAddr {d : Dinode} (fits : d.Fits) {k addr : Nat} (low : k ≤ NDIRECT) (small : addr < 2 ^ 32) :
    (d.setAddr k addr).Fits := by
  refine ⟨fits.size,fun q => ?_,fun q past => ?_⟩
  · by_cases same : q = k
    · simpa [Dinode.setAddr,same] using small
    · simpa [Dinode.setAddr,same] using fits.addrs q
  · have other : q ≠ k := by omega
    simpa [Dinode.setAddr,other] using fits.past q past

def getDinode (b : Block) (slot : Nat) : Dinode where
  type := BitVec.ofNat 16 (half b (32 * slot))
  major := BitVec.ofNat 16 (half b (32 * slot + 1))
  minor := BitVec.ofNat 16 (half b (32 * slot + 2))
  nlink := BitVec.ofNat 16 (half b (32 * slot + 3))
  size := word b (16 * slot + 2)
  addrs := fun k => if k ≤ NDIRECT then word b (16 * slot + 3 + k) else 0

def putDinode (b : Block) (slot : Nat) (d : Dinode) : Block :=
  let b := setHalf b (32 * slot) d.type.toNat
  let b := setHalf b (32 * slot + 1) d.major.toNat
  let b := setHalf b (32 * slot + 2) d.minor.toNat
  let b := setHalf b (32 * slot + 3) d.nlink.toNat
  let b := setWord b (16 * slot + 2) d.size
  setWords b (16 * slot + 3) ((List.range (NDIRECT + 1)).map d.addrs)

theorem getDinode_putDinode (b : Block) {slot : Nat} (inside : slot < IPB) {d : Dinode} (fits : d.Fits) :
    getDinode (putDinode b slot d) slot = d := by
  have small (x : BitVec 16) : x.toNat < 2 ^ 16 := x.isLt
  have block : slot < 8 := inside
  have halves : 2 * NINDIRECT = 256 := by decide
  have words : NINDIRECT = 128 := by decide
  have length : ((List.range (NDIRECT + 1)).map d.addrs).length = 13 := by simp [NDIRECT]
  refine Dinode.ext ?_ ?_ ?_ ?_ ?_ (funext fun k => ?_)
  · simp only [getDinode,putDinode]
    rw [half_setWords _ _ _ (by omega),half_setWord _ _ (by omega),half_setHalf_ne _ _ (by omega),
      half_setHalf_ne _ _ (by omega),half_setHalf_ne _ _ (by omega),half_setHalf_same _ (by omega) (small _)]
    simp
  · simp only [getDinode,putDinode]
    rw [half_setWords _ _ _ (by omega),half_setWord _ _ (by omega),half_setHalf_ne _ _ (by omega),
      half_setHalf_ne _ _ (by omega),half_setHalf_same _ (by omega) (small _)]
    simp
  · simp only [getDinode,putDinode]
    rw [half_setWords _ _ _ (by omega),half_setWord _ _ (by omega),half_setHalf_ne _ _ (by omega),
      half_setHalf_same _ (by omega) (small _)]
    simp
  · simp only [getDinode,putDinode]
    rw [half_setWords _ _ _ (by omega),half_setWord _ _ (by omega),half_setHalf_same _ (by omega) (small _)]
    simp
  · simp only [getDinode,putDinode]
    rw [word_setWords_other _ _ _ (by omega),word_setWord_same _ (by simp only [BSIZE] at *; omega) fits.size]
  · simp only [getDinode,putDinode]
    by_cases low : k ≤ NDIRECT
    · rw [if_pos low]
      have here : k < 13 := by simp only [NDIRECT] at low; omega
      rw [word_setWords_at _ _ _ (by simpa using fun j _ => fits.addrs j) (by omega) k (by omega)]
      simp
    · rw [if_neg low,fits.past k (by omega)]

theorem getDinode_putDinode_ne (b : Block) {slot other : Nat} (different : other ≠ slot) (d : Dinode) :
    getDinode (putDinode b slot d) other = getDinode b other := by
  have length : ((List.range (NDIRECT + 1)).map d.addrs).length = 13 := by simp [NDIRECT]
  have halves (j : Nat) (low : j < 4) : half (putDinode b slot d) (32 * other + j) = half b (32 * other + j) := by
    simp only [putDinode]
    rw [half_setWords _ _ _ (by omega),half_setWord _ _ (by omega),half_setHalf_ne _ _ (by omega),
      half_setHalf_ne _ _ (by omega),half_setHalf_ne _ _ (by omega),half_setHalf_ne _ _ (by omega)]
  have words (j : Nat) (low : j < 16) : word (putDinode b slot d) (16 * other + j) = word b (16 * other + j) := by
    simp only [putDinode]
    rw [word_setWords_other _ _ _ (by omega),word_setWord_ne _ _ (by omega),word_setHalf _ _ (by omega),
      word_setHalf _ _ (by omega),word_setHalf _ _ (by omega),word_setHalf _ _ (by omega)]
  refine Dinode.ext ?_ ?_ ?_ ?_ ?_ (funext fun k => ?_)
  · simp only [getDinode]
    rw [← Nat.add_zero (32 * other),halves 0 (by omega)]
  · simp only [getDinode]
    rw [halves 1 (by omega)]
  · simp only [getDinode]
    rw [halves 2 (by omega)]
  · simp only [getDinode]
    rw [halves 3 (by omega)]
  · simp only [getDinode]
    rw [words 2 (by omega)]
  · simp only [getDinode]
    split
    · rename_i low
      rw [Nat.add_assoc,words (3 + k) (by simp only [NDIRECT] at low; omega)]
    · rfl

/-- A directory entry: an inode number, 0 if the entry is free, and `DIRSIZ` bytes of
    name. -/
structure Dirent where
  inum : Nat
  name : List UInt8
  deriving DecidableEq

def DESIZE : Nat := 2 + DIRSIZ

end Osce.Layout
