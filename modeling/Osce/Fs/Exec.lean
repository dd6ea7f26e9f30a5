import Osce.Fs.Sound

/-!
What the programs that touch the bitmap and the inode blocks do when nothing else runs:
exact equations for the result and the state. They are stated for a log that has room
for everything; a run there is one of the code if the log takes the sectors it logs.
-/
namespace Osce.Fs
open Osce.Lib Osce.Layout Osce.Log Prog Function

/-- The operations over a log that has room for everything. -/
def Kernel.ample : Handler FsSig Kernel
  | .log_write s, k =>
    if k.journal.outstanding < 1 then .error (.panic "log_write outside of trans")
    else .ok ((),{ k with journal := k.journal.write s })
  | op, k => k.handle op

section
variable {sb : Superblock} {α : Type} {k k' : Kernel} {a : α}

theorem journal_ample {op : FsOp} {b : op.Ans} (answered : k.ample op = .ok (b,k')) :
    (∃ s, op = .log_write s ∧ k'.journal = k.journal.write s) ∨ k.handle op = .ok (b,k') ∧
      k'.journal.log = k.journal.log ∧ k'.journal.lh = k.journal.lh ∧ k'.journal.logged = k.journal.logged := by
  cases op with
  | log_write s =>
    simp only [Kernel.ample] at answered
    split at answered
    · cases answered
    · cases answered
      exact .inl ⟨s,rfl,rfl⟩
  | _ =>
    refine .inr ?_
    simp only [Kernel.ample,Kernel.handle] at answered ⊢
    repeat' split at answered
    all_goals cases answered
    all_goals exact ⟨by simp_all,rfl,rfl,rfl⟩

/-- Each of the sectors finds room in the log when it is logged. A sector that is there
    already takes none, but `log_write` looks for room first. -/
def takes (log : LogArea) : List Nat → List Nat → Bool
  | _,[] => true
  | lh,s :: rest => decide (lh.length < LOGSIZE ∧ lh.length + 1 < log.size) && takes log (absorb lh s) rest

/-- A run that ends well when the log has room for everything does the same in the code
    if the log takes the sectors, one after the other, and else `log_write` panics. -/
theorem exec_handle_of_ample (p : FsProg α) (run : exec Kernel.ample p k = .ok (a,k')) :
    ∃ sectors, k'.journal.logged = sectors.reverse ++ k.journal.logged ∧ k'.journal.lh = sectors.foldl absorb k.journal.lh ∧
      exec Kernel.handle p k = if takes k.journal.log k.journal.lh sectors then .ok (a,k')
        else .error (.panic "too big a transaction") := by
  induction p generalizing k with
  | ret b =>
    cases run
    exact ⟨[],rfl,rfl,rfl⟩
  | call op next ih =>
    rw [exec_call] at run
    cases answered : k.ample op with
    | error stop =>
      rw [answered] at run
      cases run
    | ok r =>
      rw [answered] at run
      obtain ⟨sectors,logged,lh,same⟩ := ih r.1 run
      obtain ⟨s,rfl,written⟩ | ⟨handled,log,lh₀,logged₀⟩ := journal_ample answered
      · rw [written] at logged lh same
        refine ⟨s :: sectors,by simpa [Journal.write] using logged,lh,?_⟩
        rw [exec_call,takes]
        simp only [Kernel.ample] at answered
        simp only [Kernel.handle]
        by_cases full : k.journal.lh.length ≥ LOGSIZE ∨ k.journal.lh.length + 1 ≥ k.journal.log.size
        · rw [if_pos full,decide_eq_false (by omega)]
          rfl
        · rw [if_neg full,answered,decide_eq_true (by omega)]
          exact same
      · rw [log,lh₀] at same
        rw [logged₀] at logged
        rw [lh₀] at lh
        refine ⟨sectors,logged,lh,?_⟩
        rw [exec_call,handled]
        exact same

end

def Kernel.put (k : Kernel) (s : Nat) (data : Block) : Kernel :=
  { k with blocks := Function.update k.blocks s data, journal := k.journal.write s }

def logging {α : Type} (outstanding : Int) (x : Except Stop α) : Except Stop α :=
  if outstanding < 1 then .error (.panic "log_write outside of trans") else x

section
variable {sb : Superblock} {α β : Type} {k : Kernel} {s : Nat}

theorem setBusy_setBusy (idle : k.busy s = false) : (k.setBusy s true).setBusy s false = k := by
  have same : update (update k.busy s true) s false = k.busy := by
    rw [update_idem,← idle,update_eq_self]
  simp only [Kernel.setBusy,same]

theorem setBusy_put (idle : k.busy s = false) (data : Block) :
    Kernel.setBusy { (k.setBusy s true).setBlock s data with journal := k.journal.write s } s false = k.put s data := by
  have same : update (update k.busy s true) s false = k.busy := by
    rw [update_idem,← idle,update_eq_self]
  simp only [Kernel.setBusy,Kernel.setBlock,Kernel.put,same]

theorem exec_perform (op : FsOp) {b : op.Ans} {k' : Kernel} (answered : k.ample op = .ok (b,k'))
    (next : op.Ans → FsProg α) :
    exec Kernel.ample (perform (S := FsSig) op >>= next) k = exec Kernel.ample (next b) k' := by
  rw [perform_bind,exec_call,answered]

theorem exec_bread (idle : k.busy s = false) (next : Block → FsProg α) :
    exec Kernel.ample (bread s >>= next) k =
      exec Kernel.ample (next (k.blocks s)) (k.setBusy s true) := by
  refine exec_perform (.bread s) ?_ next
  show (if k.busy s then _ else _) = _
  rw [idle]
  rfl

theorem exec_brelse (held : k.busy s = true) (next : Unit → FsProg α) :
    exec Kernel.ample (brelse s >>= next) k = exec Kernel.ample (next ()) (k.setBusy s false) := by
  refine exec_perform (.brelse s) ?_ next
  show (if k.busy s then _ else _) = _
  rw [held]
  rfl

theorem exec_inode (e : Entry) (next : Inode → FsProg α) :
    exec Kernel.ample (inode e >>= next) k = exec Kernel.ample (next (k.icache e)) k :=
  exec_perform (.inode e) rfl next

theorem exec_modify (e : Entry) (f : Dinode → Dinode) (next : Unit → FsProg α) :
    exec Kernel.ample (modify e f >>= next) k =
      exec Kernel.ample (next ()) (k.setInode e { k.icache e with din := f (k.icache e).din }) :=
  exec_perform (.modify e f) rfl next

theorem exec_read (idle : k.busy s = false) (next : Block → FsProg α) :
    exec Kernel.ample (bread s >>= fun bp => brelse s >>= fun _ => next bp) k =
      exec Kernel.ample (next (k.blocks s)) k := by
  rw [exec_bread idle,exec_brelse (by simp [Kernel.setBusy]),setBusy_setBusy idle]

theorem exec_finish (idle : k.busy s = false) (data : Block) (next : FsProg α) :
    exec Kernel.ample (store s data >>= fun _ => log_write s >>= fun _ => brelse s >>= fun _ => next)
        (k.setBusy s true) =
      logging k.journal.outstanding (exec Kernel.ample next (k.put s data)) := by
  have stored : (k.setBusy s true).ample (.store s data) = .ok ((),(k.setBusy s true).setBlock s data) := rfl
  rw [store,exec_perform _ stored]
  by_cases outside : k.journal.outstanding < 1
  · have stopped : ((k.setBusy s true).setBlock s data).ample (.log_write s) =
        .error (.panic "log_write outside of trans") := if_pos outside
    rw [log_write,perform_bind,exec_call,stopped,logging,if_pos outside]
  · have logged : ((k.setBusy s true).setBlock s data).ample (.log_write s) =
        .ok ((),{ (k.setBusy s true).setBlock s data with journal := k.journal.write s }) := if_neg outside
    rw [log_write,exec_perform _ logged,exec_brelse (by simp [Kernel.setBusy,Kernel.setBlock]),setBusy_put idle,logging,
      if_neg outside]

end

def freeBlock (sb : Superblock) (marks : Nat → Bool) : Option Nat := (List.range sb.size).find? fun b => !marks b

/-- The block that `balloc` returns, or why it does not return. -/
def pick (sb : Superblock) (marks : Nat → Bool) (outstanding : Int) : Except Stop Nat :=
  match freeBlock sb marks with
  | none => .error (.panic "balloc: out of blocks")
  | some b => logging outstanding (.ok b)

/-- Nobody uses a buffer but those of data blocks that are marked. -/
def Kernel.Quiet (sb : Superblock) (k : Kernel) : Prop :=
  ∀ s, k.busy s = true → dataStart sb ≤ s ∧ marked sb k.blocks s = true

section
variable {sb : Superblock} {k : Kernel} {marks marks' : Nat → Bool} {outstanding : Int} {b : Nat}

theorem freeBlock_some (found : freeBlock sb marks = some b) :
    b < sb.size ∧ marks b = false ∧ ∀ c, c < b → marks c = true := by
  obtain ⟨clear,member,earlier⟩ := List.find?_range_eq_some.mp found
  exact ⟨List.mem_range.mp member,by simpa using clear,fun c low => by simpa using earlier c low⟩

theorem freeBlock_eq (inside : b < sb.size) (clear : marks b = false) (earlier : ∀ c, c < b → marks c = true) :
    freeBlock sb marks = some b :=
  List.find?_range_eq_some.mpr ⟨by simp [clear],List.mem_range.mpr inside,fun c low => by simp [earlier c low]⟩

theorem freeBlock_none (full : ∀ b, b < sb.size → marks b = true) : freeBlock sb marks = none :=
  List.find?_range_eq_none.mpr fun b inside => by simp [full b inside]

theorem pick_ok (picked : pick sb marks outstanding = .ok b) :
    b < sb.size ∧ marks b = false ∧ (∀ c, c < b → marks c = true) ∧ 1 ≤ outstanding := by
  unfold pick at picked
  split at picked
  · cases picked
  · rename_i b' found
    obtain ⟨inside,clear,earlier⟩ := freeBlock_some found
    unfold logging at picked
    split at picked
    · cases picked
    · cases picked
      exact ⟨inside,clear,earlier,by omega⟩

theorem pick_congr (same : ∀ b, b < sb.size → marks b = marks' b) : pick sb marks outstanding = pick sb marks' outstanding := by
  have found : freeBlock sb marks = freeBlock sb marks' := by
    cases first : freeBlock sb marks with
    | none =>
      refine (freeBlock_none fun b inside => ?_).symm
      simpa [same b inside] using List.find?_range_eq_none.mp first b inside
    | some b =>
      obtain ⟨inside,clear,earlier⟩ := freeBlock_some first
      refine (freeBlock_eq inside (by rw [← same b inside,clear]) fun c low => ?_).symm
      rw [← same c (by omega),earlier c low]
  simp only [pick,found]

theorem Kernel.Quiet.idle (quiet : k.Quiet sb) {s : Nat} (low : s < dataStart sb) : k.busy s = false := by
  by_contra busy
  have := (quiet s (by simpa using busy)).1
  omega

theorem Kernel.Quiet.free (quiet : k.Quiet sb) {s : Nat} (clear : marked sb k.blocks s = false) : k.busy s = false := by
  by_contra busy
  rw [(quiet s (by simpa using busy)).2] at clear
  cases clear

theorem exec_readsb (idle : k.busy 1 = false) :
    exec Kernel.ample readsb k = .ok (Superblock.ofBlock (k.blocks 1),k) := by
  rw [readsb,exec_read idle]
  rfl

theorem exec_bzero (idle : k.busy b = false) :
    exec Kernel.ample (bzero b) k = logging k.journal.outstanding (.ok ((),k.put b (Bytes.zero BSIZE))) := by
  rw [bzero,exec_bread idle]
  exact exec_finish idle _ (pure ())

/-- `balloc` from one of the bitmap blocks on, when all blocks before are marked. -/
theorem exec_balloc_from (quiet : k.Quiet sb) (m q : Nat)
    (covers : sb.size ≤ BPB * (q + m)) (before : ∀ c, c < BPB * q → c < sb.size → marked sb k.blocks c = true)
    (started : m ≠ 0 → BPB * (q + m - 1) < sb.size) :
    exec Kernel.ample (balloc_from sb ((List.range' q m).map (BPB * ·))) k =
      pick sb (marked sb k.blocks) k.journal.outstanding >>= fun b => .ok (b,k.alloc sb b) := by
  induction m generalizing q with
  | zero =>
    have full : freeBlock sb (marked sb k.blocks) = none := freeBlock_none fun c inside => before c (by rw [Nat.add_zero] at covers; omega) inside
    rw [pick,full]
    rfl
  | succ m ih =>
    have inside : BPB * q < sb.size := by
      have := started (by omega)
      have := Nat.mul_le_mul_left BPB (show q ≤ q + (m + 1) - 1 by omega)
      omega
    have idle : k.busy (BBLOCK (BPB * q) sb.ninodes) = false := quiet.idle (BBLOCK_lt inside)
    rw [List.range'_succ,List.map_cons,balloc_from,exec_bread idle]
    cases found : firstClear (k.blocks (BBLOCK (BPB * q) sb.ninodes)) (min BPB (sb.size - BPB * q)) with
    | none =>
      have held : (k.setBusy (BBLOCK (BPB * q) sb.ninodes) true).busy (BBLOCK (BPB * q) sb.ninodes) = true :=
        update_self _ _ _
      simp only
      rw [exec_brelse held,setBusy_setBusy idle]
      refine ih (q + 1) (by rw [Nat.add_right_comm,Nat.add_assoc]; exact covers) (fun c low small => ?_) (fun some => ?_)
      · -- the block searched has no clear bit either
        by_cases earlier : c < BPB * q
        · exact before c earlier small
        · have bit := firstClear_none found (c - BPB * q) (by rw [Nat.mul_succ] at low; omega)
          rw [show c = BPB * q + (c - BPB * q) by omega,marked_block q _ (by rw [Nat.mul_succ] at low; omega),bit]
      · have := started (by omega)
        rw [show q + 1 + m - 1 = q + (m + 1) - 1 by omega]
        exact this
    | some bi =>
      obtain ⟨low,clear,earlier⟩ := firstClear_some found
      have position (j : Nat) (inBlock : j < BPB) :
          marked sb k.blocks (BPB * q + j) = (k.blocks (BBLOCK (BPB * q) sb.ninodes)).bit j := marked_block q j inBlock
      have sector : BBLOCK (BPB * q + bi) sb.ninodes = BBLOCK (BPB * q) sb.ninodes := by
        simp only [BBLOCK,BPB,BSIZE] at low ⊢
        omega
      have offset : (BPB * q + bi) % BPB = bi := by
        simp only [BPB,BSIZE] at low ⊢
        omega
      have isFree : marked sb k.blocks (BPB * q + bi) = false := by rw [position bi (by omega),clear]
      have first : freeBlock sb (marked sb k.blocks) = some (BPB * q + bi) := by
        refine freeBlock_eq (by omega) isFree fun c smaller => ?_
        by_cases inBefore : c < BPB * q
        · exact before c inBefore (by omega)
        · rw [show c = BPB * q + (c - BPB * q) by omega,position _ (by omega),earlier _ (by omega)]
      have idleBlock : (k.put (BBLOCK (BPB * q) sb.ninodes) ((k.blocks (BBLOCK (BPB * q) sb.ninodes)).setBit bi)).busy
          (BPB * q + bi) = false := quiet.free isFree
      simp only
      rw [exec_finish idle,exec_bind,exec_bzero idleBlock,pick,first]
      unfold logging
      by_cases outside : k.journal.outstanding < 1
      · rw [if_pos outside]
        simp only [outside,if_true]
        rfl
      · have still : ¬ (k.put (BBLOCK (BPB * q) sb.ninodes)
            ((k.blocks (BBLOCK (BPB * q) sb.ninodes)).setBit bi)).journal.outstanding < 1 := outside
        rw [if_neg outside,if_neg still]
        simp only [outside,if_false]
        have alloc : k.alloc sb (BPB * q + bi) = { (k.put (BBLOCK (BPB * q) sb.ninodes)
            ((k.blocks (BBLOCK (BPB * q) sb.ninodes)).setBit bi)).put (BPB * q + bi) (Bytes.zero BSIZE) with
            journal := k.journal.alloc sb (BPB * q + bi) } := by
          simp only [Kernel.alloc,sector,offset]
          rfl
        show _ = Except.ok (BPB * q + bi,k.alloc sb (BPB * q + bi))
        rw [alloc,Journal.alloc,sector]
        rfl

theorem exec_balloc (quiet : k.Quiet sb) (super : Superblock.ofBlock (k.blocks 1) = sb) :
    exec Kernel.ample balloc k =
      pick sb (marked sb k.blocks) k.journal.outstanding >>= fun b => .ok (b,k.alloc sb b) := by
  have := three_lt_dataStart sb
  have number : BPB = 4096 := by decide
  rw [balloc,exec_bind,exec_readsb (quiet.idle (by omega)),super]
  simp only
  rw [bitmapStarts,List.range_eq_range']
  refine exec_balloc_from quiet _ 0 ?_ (fun c low => ?_) (fun some => ?_)
  · rw [number]
    omega
  · omega
  · rw [number] at some ⊢
    omega

def Kernel.update (k : Kernel) (e : Entry) : Kernel :=
  k.put (IBLOCK (k.icache e).inum) (putDinode (k.blocks (IBLOCK (k.icache e).inum)) ((k.icache e).inum % IPB) (k.icache e).din)

theorem exec_iupdate {e : Entry} (idle : k.busy (IBLOCK (k.icache e).inum) = false) :
    exec Kernel.ample (iupdate e) k = logging k.journal.outstanding (.ok ((),k.update e)) := by
  rw [iupdate,exec_inode,exec_bread idle]
  exact exec_finish idle _ (pure ())

end

end Osce.Fs
