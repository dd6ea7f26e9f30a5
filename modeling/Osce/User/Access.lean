import Osce.User.Code

/-!
Where the system calls access the memory of their caller. Each function that copies is given a buffer
and stays inside it, whatever the rest of the kernel answers; the checks of `argptr` put the buffer
inside the process.
-/
namespace Osce.User
open Osce.Lib Osce.Layout Prog

/-- Every byte that the operation touches is one of the `n` bytes at `p`. -/
def Within (p n : Nat) (op : UserOp) : Prop := ∀ a, op.Touches a → p ≤ a ∧ a < p + n

theorem Within.mono {p n q m : Nat} {op : UserOp} (within : Within q m op) (low : p ≤ q) (high : q + m ≤ p + n) :
    Within p n op := by
  intro a touches
  have bounds := within a touches
  omega

theorem toNat_offset {p : Word} {i : Nat} (fits : p.toNat + i < 2 ^ 32) : (p + BitVec.ofNat 32 i).toNat = p.toNat + i := by
  rw [BitVec.toNat_add,BitVec.toNat_ofNat]
  omega

section
variable {p : Word} {n : Nat}

theorem within_byte {i : Nat} (room : p.toNat + n < 2 ^ 32) (inside : i < n) (b : UInt8) :
    Within p.toNat n (.load (p + BitVec.ofNat 32 i)) ∧ Within p.toNat n (.store (p + BitVec.ofNat 32 i) b) := by
  have place := toNat_offset (p := p) (i := i) (by omega)
  refine ⟨fun a touches => ?_,fun a touches => ?_⟩
  · simp only [UserOp.Touches] at touches
    omega
  · simp only [UserOp.Touches] at touches
    omega

theorem within_bytes {m : Nat} (room : p.toNat + n < 2 ^ 32) (inside : m ≤ n) {bytes : List UInt8} (length : bytes.length = m) :
    Within p.toNat n (.loads p m) ∧ Within p.toNat n (.stores p bytes) := by
  refine ⟨?_,?_⟩
  · rintro a ⟨i,small,rfl⟩
    rw [toNat_offset (by omega)]
    omega
  · rintro a ⟨i,small,rfl⟩
    rw [toNat_offset (by omega)]
    omega

theorem piperead_from_within (room : p.toNat + n < 2 ^ 32) (turns : Nat) {i : Nat} (inside : i + turns ≤ n) :
    Always (Within p.toNat n) (piperead_from p turns i) := by
  induction turns generalizing i with
  | zero => trivial
  | succ turns ih =>
    refine ⟨nofun,fun b => ?_⟩
    cases b with
    | none => trivial
    | some b => exact ⟨(within_byte room (by omega) b).2,fun _ => ih (by omega)⟩

theorem pipewrite_from_within {k : Word} (room : p.toNat + n < 2 ^ 32) (turns : Nat) {i : Nat} (inside : i + turns ≤ n) :
    Always (Within p.toNat n) (pipewrite_from p k turns i) := by
  induction turns generalizing i with
  | zero => trivial
  | succ turns ih =>
    refine ⟨nofun,fun ready => ?_⟩
    cases ready with
    | false => trivial
    | true => exact ⟨(within_byte room (by omega) 0).1,fun _ => ⟨nofun,fun _ => ih (by omega)⟩⟩

theorem consoleread_from_within (room : p.toNat + n < 2 ^ 32) (turns : Nat) {i : Nat} (inside : i + turns ≤ n) :
    Always (Within p.toNat n) (consoleread_from p turns i) := by
  induction turns generalizing i with
  | zero => exact ⟨nofun,fun _ => trivial⟩
  | succ turns ih =>
    refine always_perform nofun fun c => ?_
    cases c with
    | none => exact ⟨nofun,fun _ => trivial⟩
    | some c =>
      dsimp only
      split
      · split
        · exact ⟨nofun,fun _ => ⟨nofun,fun _ => trivial⟩⟩
        · exact ⟨nofun,fun _ => trivial⟩
      · refine always_perform (within_byte room (by omega) c).2 fun _ => ?_
        split
        · exact ⟨nofun,fun _ => trivial⟩
        · exact ih (by omega)

theorem consolewrite_from_within {k : Word} (room : p.toNat + n < 2 ^ 32) (turns : Nat) {i : Nat} (inside : i + turns ≤ n) :
    Always (Within p.toNat n) (consolewrite_from p k turns i) := by
  induction turns generalizing i with
  | zero => exact ⟨nofun,fun _ => trivial⟩
  | succ turns ih => exact ⟨(within_byte room (by omega) 0).1,fun _ => ⟨nofun,fun _ => ih (by omega)⟩⟩

theorem chunk_le (off n : Nat) : chunk off n ≤ n := Nat.min_le_left ..

theorem readi_from_within (turns : Nat) {p : Word} {off n : Nat} (room : p.toNat + n < 2 ^ 32) :
    Always (Within p.toNat n) (readi_from turns p off n) := by
  induction turns generalizing p off n with
  | zero => trivial
  | succ turns ih =>
    have part := chunk_le off n
    rw [readi_from]
    split
    · trivial
    · refine ⟨nofun,fun bp => ⟨(within_bytes room part (by simp)).2,fun _ => ?_⟩⟩
      have next := toNat_offset (p := p) (i := chunk off n) (by omega)
      exact always_mono (ih (by omega)) fun op within => within.mono (by omega) (by omega)

theorem writei_from_within (turns : Nat) {p : Word} {off n : Nat} (room : p.toNat + n < 2 ^ 32) :
    Always (Within p.toNat n) (writei_from turns p off n) := by
  induction turns generalizing p off n with
  | zero => trivial
  | succ turns ih =>
    have part := chunk_le off n
    rw [writei_from]
    split
    · trivial
    · refine ⟨nofun,fun bp => ⟨(within_bytes room part (List.length_replicate (a := (0 : UInt8)))).1,fun _ => ⟨nofun,fun _ => ?_⟩⟩⟩
      have next := toNat_offset (p := p) (i := chunk off n) (by omega)
      exact always_mono (ih (by omega)) fun op within => within.mono (by omega) (by omega)

theorem toNat_eq_count {k : Word} (positive : 0 ≤ k.toInt) : k.toNat = count k := by
  rw [count]
  have split := BitVec.toInt_eq_toNat_cond k
  split at split <;> omega

theorem toInt_small {m : Nat} (small : m < 2 ^ 31) : (BitVec.ofNat 32 m).toInt = m := by
  have split := BitVec.toInt_eq_toNat_cond (BitVec.ofNat 32 m)
  rw [BitVec.toNat_ofNat] at split
  split at split <;> omega

theorem clipped_le {off size k : Word} (inside : ¬ off.toNat > size.toNat) (flat : ¬ (off + k).toNat < off.toNat) :
    (if (off + k).toNat > size.toNat then size - off else k).toNat ≤ k.toNat := by
  rw [BitVec.toNat_add] at *
  split
  · rw [BitVec.toNat_sub_of_le (by rw [BitVec.le_def]; omega)]
    omega
  · exact le_rfl

theorem readi_within (off : Word) {k : Word} (positive : 0 ≤ k.toInt) (room : p.toNat + count k < 2 ^ 32) :
    Always (Within p.toNat (count k)) (readi p off k) := by
  refine always_perform nofun fun ip => ?_
  split
  · split
    · exact ⟨nofun,fun _ => consoleread_from_within room _ (by omega)⟩
    · trivial
  · split
    · trivial
    · rename_i outside
      have clipped : (if (off + k).toNat > ip.size.toNat then ip.size - off else k).toNat ≤ k.toNat := clipped_le (by omega) (by omega)
      rw [toNat_eq_count positive] at clipped
      refine always_bind (always_mono (readi_from_within _ (by omega)) fun op within => within.mono le_rfl (by omega)) fun _ => trivial

theorem writei_within (off : Word) {k : Word} (positive : 0 ≤ k.toInt) (room : p.toNat + count k < 2 ^ 32) :
    Always (Within p.toNat (count k)) (writei p off k) := by
  refine always_perform nofun fun ip => ?_
  split
  · split
    · exact ⟨nofun,fun _ => consolewrite_from_within room _ (by omega)⟩
    · trivial
  · split
    · trivial
    · split
      · trivial
      · rw [← toNat_eq_count positive] at room ⊢
        refine always_bind (writei_from_within _ room) fun last => ?_
        split
        · exact ⟨nofun,fun _ => trivial⟩
        · trivial

theorem advance_within (r : Word) : Always (Within p.toNat n) (advance r) := by
  rw [advance]
  split
  · exact ⟨nofun,fun _ => trivial⟩
  · trivial

theorem filewrite_from_within {k : Word} (room : p.toNat + count k < 2 ^ 32) (turns : Nat) {i : Nat} :
    Always (Within p.toNat (count k)) (filewrite_from p k turns i) := by
  induction turns generalizing i with
  | zero => trivial
  | succ turns ih =>
    rw [filewrite_from]
    split
    · rename_i more
      have limit : max = 6656 := rfl
      have small : min (count k - i) max < 2 ^ 31 := by omega
      have part : count (BitVec.ofNat 32 (min (count k - i) max)) = min (count k - i) max := by
        rw [count,toInt_small small]
        rfl
      have place := toNat_offset (p := p) (i := i) (by omega)
      refine always_perform nofun fun _ => always_perform nofun fun _ => always_perform nofun fun off => ?_
      refine always_bind (always_mono (writei_within off ?_ ?_) fun op within => within.mono (by omega) (by omega)) fun r => ?_
      · rw [toInt_small small]
        omega
      · omega
      · refine always_bind (advance_within r) fun _ => always_perform nofun fun _ => always_perform nofun fun _ => ?_
        split
        · trivial
        · split
          · exact ⟨nofun,nofun⟩
          · exact ih
    · trivial

end

theorem Caller.argptr_spec {c : Caller} {k : Nat} {size p : Word} (passed : c.argptr k size = some p) :
    p.toNat < c.sz ∧ (p + size).toNat ≤ c.sz := by
  rw [argptr] at passed
  split at passed
  · cases passed
  · split at passed
    · cases passed
    · cases passed
      omega

/-- A buffer of a size that is not negative lies inside the process. -/
theorem Caller.argptr_inside {c : Caller} {k : Nat} {n p : Word} (small : c.sz ≤ KERNBASE) (positive : 0 ≤ n.toInt)
    (passed : c.argptr k n = some p) : p.toNat + n.toNat ≤ c.sz := by
  obtain ⟨below,sum⟩ := argptr_spec passed
  have sign := BitVec.toInt_eq_toNat_cond n
  have limit : KERNBASE = 2 ^ 31 := rfl
  rw [BitVec.toNat_add] at sum
  split at sign <;> omega

theorem Caller.argptr_room {c : Caller} {k : Nat} {n p : Word} (small : c.sz ≤ KERNBASE) (passed : c.argptr k n = some p) :
    p.toNat + count n < 2 ^ 32 := by
  have below := (argptr_spec passed).1
  have limit : KERNBASE = 2 ^ 31 := rfl
  have high := BitVec.toInt_lt (x := n)
  rw [count]
  omega

section
variable {c : Caller} {f : File} {p n : Word}

theorem iunlock_within {m : Nat} (r : Word) : Always (Within p.toNat m) (do advance r; perform .iunlock; pure r) :=
  always_bind (advance_within r) fun _ => ⟨nofun,fun _ => trivial⟩

theorem fileread_within (signed : 0 ≤ n.toInt ∨ f.type ≠ .FD_INODE ∨ f.readable = false) (room : p.toNat + count n < 2 ^ 32) :
    Always (Within p.toNat (count n)) (fileread f p n) := by
  rw [fileread]
  split
  · trivial
  · rename_i readable
    split
    · refine always_perform nofun fun ready => ?_
      split
      · exact piperead_from_within room _ (by omega)
      · trivial
    · rename_i isInode
      have positive := signed.resolve_right (fun other => other.elim (fun other => other isInode) readable)
      refine always_perform nofun fun _ => always_perform nofun fun off => ?_
      exact always_bind (readi_within off positive room) iunlock_within
    · exact ⟨nofun,nofun⟩

theorem filewrite_within (room : p.toNat + count n < 2 ^ 32) : Always (Within p.toNat (count n)) (filewrite f p n) := by
  rw [filewrite]
  split
  · trivial
  · split
    · exact pipewrite_from_within room _ (by omega)
    · exact filewrite_from_within room _
    · exact ⟨nofun,nofun⟩

theorem inside_of_within (small : c.sz ≤ KERNBASE) (ptr : c.argptr 1 n = some p) {op : UserOp}
    (within : Within p.toNat (count n) op) {a : Nat} (touches : op.Touches a) :
    p.toNat ≤ a ∧ (a : Int) < p.toNat + n.toInt ∧ a < c.sz := by
  obtain ⟨low,high⟩ := within a touches
  by_cases positive : 0 ≤ n.toInt
  · have inside := Caller.argptr_inside small positive ptr
    have same := toNat_eq_count positive
    rw [count] at *
    omega
  · rw [count] at high
    omega

/-- A count below 0 is a large one for `readi`: it stores something if the file has bytes left and the offset does not wrap. -/
def Overruns (f : File) (k : Kernel) (n : Word) : Prop :=
  n.toInt < 0 ∧ f.readable = true ∧ f.type = .FD_INODE ∧ k.inode.type ≠ T_DEV ∧
    k.off.toNat < k.inode.size.toNat ∧ k.off.toNat + n.toNat < 2 ^ 32

instance (f : File) (k : Kernel) (n : Word) : Decidable (Overruns f k n) := by
  unfold Overruns
  infer_instance

theorem toNat_of_neg (negative : n.toInt < 0) : 2 ^ 31 ≤ n.toNat := by
  have sign := BitVec.toInt_eq_toNat_cond n
  split at sign <;> omega

theorem fileread_calm {k : Kernel} {op : UserOp} (negative : n.toInt < 0) (readable : f.readable = true) (isInode : f.type = .FD_INODE)
    (calm : ¬ Overruns f k n) (room : p.toNat + count n < 2 ^ 32) (performs : Performs k.Answers (fileread f p n) op) :
    Within p.toNat (count n) op := by
  rw [fileread,if_neg (by simp [readable])] at performs
  simp only [isInode] at performs
  rcases performs_perform performs with rfl | ⟨_,_,performs⟩
  · exact nofun
  rcases performs_perform performs with rfl | ⟨off,rfl,performs⟩
  · exact nofun
  unfold readi at performs
  rw [bind_assoc] at performs
  rcases performs_perform performs with rfl | ⟨ip,rfl,performs⟩
  · exact nofun
  refine always_performs (always_bind ?_ iunlock_within) performs
  split
  · split
    · exact ⟨nofun,fun _ => consoleread_from_within room _ (by omega)⟩
    · trivial
  split
  · trivial
  rename_i isFile reads
  -- the file ends at the offset
  have large := toNat_of_neg negative
  have flat : (k.off + n).toNat = k.off.toNat + n.toNat := by
    rw [BitVec.toNat_add] at reads ⊢
    omega
  have atEnd : k.off.toNat = k.inode.size.toNat := by
    by_contra more
    exact calm ⟨negative,readable,isInode,isFile,by omega,by omega⟩
  have nothing : (if (k.off + n).toNat > k.inode.size.toNat then k.inode.size - k.off else n).toNat = 0 := by
    rw [if_pos (by omega),BitVec.toNat_sub_of_le (by rw [BitVec.le_def]; omega)]
    omega
  simp only [nothing]
  trivial

theorem fileread_overruns {k : Kernel} (overruns : Overruns f k n) :
    ∃ bytes, bytes ≠ [] ∧ Performs k.Answers (fileread f p n) (.stores p bytes) := by
  obtain ⟨negative,readable,isInode,isFile,more,flat⟩ := overruns
  have large := toNat_of_neg negative
  have sum : (k.off + n).toNat = k.off.toNat + n.toNat := by
    rw [BitVec.toNat_add]
    omega
  obtain ⟨m,length⟩ : ∃ m, (if (k.off + n).toNat > k.inode.size.toNat then k.inode.size - k.off else n).toNat = m + 1 := by
    refine Nat.exists_eq_succ_of_ne_zero ?_
    split
    · rw [BitVec.toNat_sub_of_le (by rw [BitVec.le_def]; omega)]
      omega
    · omega
  have outside : ¬ (k.off.toNat > k.inode.size.toNat ∨ (k.off + n).toNat < k.off.toNat) := by omega
  refine ⟨(Bytes.zero BSIZE).read (k.off.toNat % BSIZE) (chunk k.off.toNat (m + 1)),?_,?_⟩
  · have left := Nat.mod_lt k.off.toNat (show 0 < BSIZE by decide)
    rw [← List.length_pos_iff]
    simp only [Bytes.length_read,chunk]
    omega
  rw [fileread,if_neg (by simp [readable])]
  simp only [isInode]
  refine .next () trivial (.next k.off rfl ?_)
  unfold readi
  rw [bind_assoc]
  refine .next k.inode rfl ?_
  simp only [if_neg isFile,if_neg outside,length]
  exact .later (Bytes.zero BSIZE) trivial .here

/-- A `sys_read` or `sys_write` that passes its checks accesses only the `n` bytes at `p`, all of them
    in the process; a `sys_read` unless it overruns them. -/
theorem read_write_inside (small : c.sz ≤ KERNBASE) (fd : c.argfd 0 = some f) (length : c.argint 2 = some n)
    (ptr : c.argptr 1 n = some p) :
    (∀ k : Kernel, (∀ op, Performs k.Answers (sys_read c) op → ∀ a, op.Touches a →
      p.toNat ≤ a ∧ (a : Int) < p.toNat + n.toInt ∧ a < c.sz) ↔ ¬ Overruns f k n) ∧
    ∀ op, Performs (fun _ _ => True) (sys_write c) op → ∀ a, op.Touches a → p.toNat ≤ a ∧ (a : Int) < p.toNat + n.toInt ∧ a < c.sz := by
  have room := Caller.argptr_room small ptr
  have read : sys_read c = fileread f p n := by
    simp only [sys_read,fd,length,ptr]
  have write : sys_write c = filewrite f p n := by
    simp only [sys_write,fd,length,ptr]
  refine ⟨fun k => ⟨fun inside overruns => ?_,fun calm op performs a touches => ?_⟩,fun op performs a touches => ?_⟩
  · obtain ⟨bytes,some,performs⟩ := fileread_overruns (p := p) overruns
    have bounds := inside (.stores p bytes) (read ▸ performs) p.toNat ⟨0,List.length_pos_iff.mpr some,by simp⟩
    have negative := overruns.1
    omega
  · rw [read] at performs
    refine inside_of_within small ptr ?_ touches
    by_cases signed : 0 ≤ n.toInt ∨ f.type ≠ .FD_INODE ∨ f.readable = false
    · exact always_performs (fileread_within signed room) performs
    · rw [not_or,not_or,not_not] at signed
      exact fileread_calm (by omega) (by simpa using signed.2.2) signed.2.1 calm room performs
  · rw [write] at performs
    exact inside_of_within small ptr (always_performs (filewrite_within room) performs) touches

end

/-- A process of one page with three words as arguments, and an open file. -/
def callerOf (first second third : Nat) (f : File) : Caller where
  sz := 4096
  esp := 0
  mem a := (leBytes 4 0 ++ leBytes 4 first ++ leBytes 4 second ++ leBytes 4 third).getD a.toNat 0
  ofile _ := some f

/-- A file of 5000 bytes at its start, and a table without processes. -/
def fiveThousand : Kernel := ⟨⟨2,T_FILE,0,1,5000⟩,0,fun _ => ⟨0,[],.UNUSED,0,fun _ => false⟩⟩

/-- Ten bytes at 100, and -1 bytes at the end of the file. -/
theorem read_write_inside_ten : (callerOf 0 100 10 ⟨.FD_INODE,true,false⟩).argptr 1 10 = some 100 ∧
    (∀ op, Performs fiveThousand.Answers (sys_read (callerOf 0 100 10 ⟨.FD_INODE,true,false⟩)) op → ∀ a, op.Touches a →
      (100#32).toNat ≤ a ∧ (a : Int) < (100#32).toNat + (10#32).toInt ∧ a < 4096) ∧
    ∀ op, Performs { fiveThousand with off := 5000 }.Answers (sys_read (callerOf 0 100 (2 ^ 32 - 1) ⟨.FD_INODE,true,false⟩)) op →
      ∀ a, op.Touches a → (100#32).toNat ≤ a ∧ (a : Int) < (100#32).toNat + (-1#32).toInt ∧ a < 4096 :=
  ⟨by decide,((read_write_inside (c := callerOf 0 100 10 ⟨.FD_INODE,true,false⟩) (f := ⟨.FD_INODE,true,false⟩) (by decide) (by decide)
    (by decide) (by decide)).1 fiveThousand).mpr (by decide),
    ((read_write_inside (c := callerOf 0 100 (2 ^ 32 - 1) ⟨.FD_INODE,true,false⟩) (f := ⟨.FD_INODE,true,false⟩) (by decide) (by decide)
    (by decide) (by decide)).1 { fiveThousand with off := 5000 }).mpr (by decide)⟩

/-- With the count -1, of which `argptr` sees that it ends before it begins, `sys_read` of a file of 5000
    bytes stores 512 bytes at address 4000 of a process of 4096 bytes. -/
theorem sys_read_past_end : let c := callerOf 0 4000 (2 ^ 32 - 1) ⟨.FD_INODE,true,false⟩
    c.sz ≤ KERNBASE ∧ c.argfd 0 = some ⟨.FD_INODE,true,false⟩ ∧ c.argint 2 = some (-1) ∧ c.argptr 1 (-1) = some 4000 ∧
      ∃ op a, Performs fiveThousand.Answers (sys_read c) op ∧ op.Touches a ∧ c.sz ≤ a := by
  refine ⟨by decide,by decide,by decide,by decide,.stores 4000 ((Bytes.zero BSIZE).read 0 512),4096,?_,⟨96,by simp,by decide⟩,le_rfl⟩
  have called : sys_read (callerOf 0 4000 (2 ^ 32 - 1) ⟨.FD_INODE,true,false⟩) = fileread ⟨.FD_INODE,true,false⟩ 4000 (-1) := by
    have fd : (callerOf 0 4000 (2 ^ 32 - 1) ⟨.FD_INODE,true,false⟩).argfd 0 = some ⟨.FD_INODE,true,false⟩ := by decide
    have length : (callerOf 0 4000 (2 ^ 32 - 1) ⟨.FD_INODE,true,false⟩).argint 2 = some (-1) := by decide
    have ptr : (callerOf 0 4000 (2 ^ 32 - 1) ⟨.FD_INODE,true,false⟩).argptr 1 (-1) = some 4000 := by decide
    simp only [sys_read,fd,length,ptr]
  rw [called]
  refine .later () trivial (.later 0 rfl (.later ⟨2,T_FILE,0,1,5000⟩ rfl ?_))
  exact .later (Bytes.zero BSIZE) trivial .here

section
variable {c : Caller} {q : Word} {n : Nat}

theorem setField_within (room : q.toNat + n < 2 ^ 32) {offset size : Nat} (value : Nat) (inside : offset + size ≤ n) :
    Always (Within q.toNat n) (setField q offset size value) := by
  refine ⟨?_,fun _ => trivial⟩
  rintro a ⟨i,small,rfl⟩
  rw [length_leBytes] at small
  have place := toNat_offset (p := q) (i := offset) (by omega)
  rw [toNat_offset (by omega)]
  omega

theorem setField_then {α : Type} {rest : Unit → UserProg α} (room : q.toNat + n < 2 ^ 32) {offset size : Nat} (value : Nat)
    (inside : offset + size ≤ n) (after : Always (Within q.toNat n) (rest ())) :
    Always (Within q.toNat n) (setField q offset size value >>= rest) :=
  always_bind (setField_within room value inside) fun _ => after

theorem filestat_within {f : File} (room : q.toNat + SIZEOF_STAT < 2 ^ 32) :
    Always (Within q.toNat SIZEOF_STAT) (filestat f q) := by
  have size : SIZEOF_STAT = 20 := rfl
  rw [filestat]
  split
  · refine always_perform nofun fun _ => always_perform nofun fun ip => always_bind ?_ fun _ => ⟨nofun,fun _ => trivial⟩
    refine setField_then room _ (by omega) (setField_then room _ (by omega) (setField_then room _ (by omega) ?_))
    refine setField_then room _ (by omega) ?_
    exact setField_within room _ (by omega)
  · trivial

theorem wait_within (room : q.toNat + 4 < 2 ^ 32) : Always (Within q.toNat 4) (wait q) := by
  refine always_perform nofun fun child => ?_
  cases child with
  | none => trivial
  | some r =>
    dsimp only
    split
    · exact setField_then room _ (by omega) trivial
    · trivial

theorem pstat_name_within {name : List UInt8} (room : q.toNat + n < 2 ^ 32) (long : 16 ≤ n) (is : List Nat) (low : ∀ i ∈ is, i < 16) :
    Always (Within q.toNat n) (pstat_name q name is) := by
  induction is with
  | nil => trivial
  | cons i rest ih =>
    have first := low i (by simp)
    exact setField_then room _ (by omega) (ih fun j member => low j (by simp [member]))

theorem pstat_from_within {pid : Word} (room : q.toNat + SIZEOF_PROCSTAT < 2 ^ 32) (ps : List (Fin Procs.NPROC)) :
    Always (Within q.toNat SIZEOF_PROCSTAT) (pstat_from pid q ps) := by
  have size : SIZEOF_PROCSTAT = 28 := rfl
  induction ps with
  | nil => trivial
  | cons i rest ih =>
    refine always_perform nofun fun p => ?_
    split
    · refine always_bind (pstat_name_within room (by omega) _ fun j member => List.mem_range.mp member) fun _ => ?_
      exact setField_then room _ (by omega) (setField_then room _ (by omega) (setField_then room _ (by omega) trivial))
    · exact ih

theorem pstat_from_unknown {k : Kernel} {pid : Word} (unknown : ∀ i, (k.ptable i).pid ≠ pid) (ps : List (Fin Procs.NPROC)) {op : UserOp}
    (performs : Performs k.Answers (pstat_from pid q ps) op) : Within q.toNat 0 op := by
  induction ps with
  | nil => cases performs
  | cons i rest ih =>
    rcases performs_perform performs with rfl | ⟨entry,rfl,performs⟩
    · exact nofun
    · rw [if_neg (unknown i)] at performs
      exact ih performs

theorem performs_pstat_name {k : Kernel} {name : List UInt8} {α : Type} {rest : Unit → UserProg α} {op : UserOp}
    (performs : Performs k.Answers (rest ()) op) (is : List Nat) : Performs k.Answers (pstat_name q name is >>= rest) op := by
  induction is with
  | nil => exact performs
  | cons i is ih => exact .later () trivial ih

/-- The last bytes of a `struct procstat` are those of its state. -/
theorem pstat_from_last {k : Kernel} {pid : Word} {ps : List (Fin Procs.NPROC)} (known : ∃ i ∈ ps, (k.ptable i).pid = pid) :
    ∃ bytes, bytes.length = 4 ∧ Performs k.Answers (pstat_from pid q ps) (.stores (q + BitVec.ofNat 32 24) bytes) := by
  induction ps with
  | nil => simp at known
  | cons i rest ih =>
    by_cases here : (k.ptable i).pid = pid
    · refine ⟨leBytes 4 (stateNumber (k.ptable i).state),length_leBytes ..,.next (k.ptable i) rfl ?_⟩
      rw [if_pos here]
      exact performs_pstat_name .here _
    · have further : ∃ i ∈ rest, (k.ptable i).pid = pid := by
        obtain ⟨j,member,same⟩ := known
        rcases List.mem_cons.mp member with rfl | member
        · exact absurd same here
        · exact ⟨j,member,same⟩
      obtain ⟨bytes,length,performs⟩ := ih further
      refine ⟨bytes,length,.next (k.ptable i) rfl ?_⟩
      rw [if_neg here]
      exact performs

theorem below_of_within (small : c.sz ≤ KERNBASE) (fits : q.toNat + n ≤ c.sz) {α : Type} {prog : UserProg α}
    (within : q.toNat + n < 2 ^ 32 → Always (Within q.toNat n) prog) {given : (op : UserOp) → op.Ans → Prop} {op : UserOp}
    (performs : Performs given prog op) {a : Nat}
    (touches : op.Touches a) : a < c.sz := by
  have limit : KERNBASE = 2 ^ 31 := rfl
  have bounds := always_performs (within (by omega)) performs a touches
  omega

/-- What `sys_fstat`, `sys_pipe`, `sys_wait` and `sys_pstat` store when their arguments pass lies below the end of the
    process; for `sys_pstat` just if a whole `struct procstat` does or no process has the pid. -/
theorem structures_inside (small : c.sz ≤ KERNBASE) (q : Word) (k : Kernel) :
    (c.argptr 1 (BitVec.ofNat 32 SIZEOF_STAT) = some q → ∀ op, Performs k.Answers (sys_fstat c) op → ∀ a, op.Touches a → a < c.sz) ∧
    (c.argptr 0 (BitVec.ofNat 32 (2 * 4)) = some q → ∀ op, Performs k.Answers (sys_pipe c) op → ∀ a, op.Touches a → a < c.sz) ∧
    (c.argptr 0 (BitVec.ofNat 32 SIZEOF_POINTER) = some q → ∀ op, Performs k.Answers (sys_wait c) op → ∀ a, op.Touches a → a < c.sz) ∧
    ∀ pid, c.argint 0 = some pid → c.argptr 1 (BitVec.ofNat 32 SIZEOF_POINTER) = some q →
      ((∀ op, Performs k.Answers (sys_pstat c) op → ∀ a, op.Touches a → a < c.sz) ↔
        q.toNat + SIZEOF_PROCSTAT ≤ c.sz ∨ ∀ i, (k.ptable i).pid ≠ pid) := by
  refine ⟨fun ptr op performs a touches => ?_,fun ptr op performs a touches => ?_,fun ptr op performs a touches => ?_,
    fun pid known ptr => ?_⟩
  · have inside := Caller.argptr_inside small (by decide) ptr
    refine below_of_within small inside (fun room => ?_) performs touches
    rw [sys_fstat,ptr]
    split
    · rename_i same
      cases same
      exact filestat_within room
    · trivial
  · have inside := Caller.argptr_inside small (by decide) ptr
    refine below_of_within small inside (fun room => ?_) performs touches
    simp only [sys_pipe,ptr]
    refine always_perform nofun fun pair => ?_
    cases pair with
    | none => trivial
    | some pair => exact setField_then room _ (by decide) (setField_then room _ (by decide) trivial)
  · have inside := Caller.argptr_inside small (by decide) ptr
    refine below_of_within small inside (fun room => ?_) performs touches
    simp only [sys_wait,ptr]
    exact wait_within room
  · have called : sys_pstat c = pstat pid q := by simp only [sys_pstat,known,ptr]
    rw [called]
    constructor
    · intro inside
      by_contra neither
      rw [not_or,not_forall] at neither
      obtain ⟨i,same⟩ := neither.2
      obtain ⟨bytes,length,performs⟩ := pstat_from_last (q := q) (k := k) ⟨i,List.mem_finRange i,not_not.mp same⟩
      have last := inside _ performs _ ⟨3,by omega,rfl⟩
      have low := (Caller.argptr_spec ptr).1
      have limit : KERNBASE = 2 ^ 31 := rfl
      have size : SIZEOF_PROCSTAT = 28 := rfl
      rw [toNat_offset (by rw [toNat_offset (by omega)]; omega),toNat_offset (by omega)] at last
      omega
    · rintro (fits | unknown) op performs a touches
      · exact below_of_within small fits (fun room => pstat_from_within room _) performs touches
      · have bounds := pstat_from_unknown unknown _ performs a touches
        omega

end

/-- The descriptors of a pipe at address 4088 of a process of 4096 bytes, a structure at 4068, and one at 4092 for a
    pid that no process has. -/
theorem structures_inside_end : (∀ op, Performs fiveThousand.Answers (sys_pipe (callerOf 4088 0 0 ⟨.FD_PIPE,true,false⟩)) op →
      ∀ a, op.Touches a → a < 4096) ∧
    (∀ op, Performs fiveThousand.Answers (sys_pstat (callerOf 0 4068 0 ⟨.FD_PIPE,true,false⟩)) op → ∀ a, op.Touches a → a < 4096) ∧
    ∀ op, Performs fiveThousand.Answers (sys_pstat (callerOf 9999 4092 0 ⟨.FD_PIPE,true,false⟩)) op → ∀ a, op.Touches a → a < 4096 :=
  ⟨(structures_inside (c := callerOf 4088 0 0 ⟨.FD_PIPE,true,false⟩) (by decide) 4088 fiveThousand).2.1 (by decide),
    ((structures_inside (c := callerOf 0 4068 0 ⟨.FD_PIPE,true,false⟩) (by decide) 4068 fiveThousand).2.2.2 0 (by decide) (by decide)).mpr
      (.inl (by decide)),
    ((structures_inside (c := callerOf 9999 4092 0 ⟨.FD_PIPE,true,false⟩) (by decide) 4092 fiveThousand).2.2.2 9999 (by decide)
      (by decide)).mpr (.inr (by decide))⟩

/-- A table with one process, with the pid 1 and an empty name. -/
def oneProcess : Kernel := { fiveThousand with ptable := fun p => ⟨if p.val = 0 then 1 else 0,[],.RUNNING,4096,fun _ => false⟩ }

/-- `sys_pstat` has four bytes at address 4092 checked, and stores the fifth byte of the name at 4096. -/
theorem sys_pstat_past_end : let c := callerOf 1 4092 0 ⟨.FD_PIPE,true,false⟩
    c.sz ≤ KERNBASE ∧ c.argint 0 = some 1 ∧ c.argptr 1 (BitVec.ofNat 32 SIZEOF_POINTER) = some 4092 ∧
      ∃ op a, Performs oneProcess.Answers (sys_pstat c) op ∧ op.Touches a ∧ c.sz ≤ a := by
  refine ⟨by decide,by decide,by decide,.stores (4092 + BitVec.ofNat 32 4) (leBytes 1 0),4096,?_,⟨0,by decide,by decide⟩,by decide⟩
  have called : sys_pstat (callerOf 1 4092 0 ⟨.FD_PIPE,true,false⟩) = pstat 1 4092 := by
    have pid : (callerOf 1 4092 0 ⟨.FD_PIPE,true,false⟩).argint 0 = some 1 := by decide
    have ptr : (callerOf 1 4092 0 ⟨.FD_PIPE,true,false⟩).argptr 1 (BitVec.ofNat 32 SIZEOF_POINTER) = some 4092 := by decide
    simp only [sys_pstat,pid,ptr]
  rw [called]
  refine .later ⟨1,[],.RUNNING,4096,fun _ => false⟩ rfl ?_
  exact .later () trivial (.later () trivial (.later () trivial (.later () trivial .here)))

end Osce.User
