import Osce.Lib.Prog
import Osce.Layout

/-!
The redo log of `log.c`: the programs that write a transaction to the log, install
it and recover it, over the buffer operations they use. The log is the area
`[start, start + size)` of the disk: a header block, then one block for each
sector of the transaction.
-/
namespace Osce.Log
open Osce.Lib Osce.Layout
open Bytes (word setWord word_zero word_setWord_same word_setWord_ne)

/-- `log.start` and `log.size`. -/
structure LogArea where
  start : Nat
  size : Nat

def LogArea.Inside (log : LogArea) (s : Nat) : Prop := log.start ≤ s ∧ s < log.start + log.size

instance (log : LogArea) (s : Nat) : Decidable (log.Inside s) := inferInstanceAs (Decidable (_ ∧ _))

/-- The buffer operations that the log code uses, and its accesses to `log.lh`. -/
inductive LogOp where
  | bread (sector : Nat)
  /-- A copy into the data of a buffer that the caller holds. -/
  | store (sector : Nat) (data : Block)
  | bwrite (sector : Nat)
  | brelse (sector : Nat)
  /-- `log.lh.sector[0..log.lh.n)`. -/
  | lh
  | setLh (sectors : List Nat)

@[reducible] def LogOp.Ans : LogOp → Type
  | .bread _ => Block
  | .lh => List Nat
  | _ => Unit

abbrev LogSig : Sig := ⟨LogOp,LogOp.Ans⟩
abbrev LogProg := Prog LogSig

def bread (sector : Nat) : LogProg Block := Prog.perform (S := LogSig) (.bread sector)
def store (sector : Nat) (data : Block) : LogProg Unit := Prog.perform (S := LogSig) (.store sector data)
def bwrite (sector : Nat) : LogProg Unit := Prog.perform (S := LogSig) (.bwrite sector)
def brelse (sector : Nat) : LogProg Unit := Prog.perform (S := LogSig) (.brelse sector)
def getLh : LogProg (List Nat) := Prog.perform (S := LogSig) .lh
def setLh (sectors : List Nat) : LogProg Unit := Prog.perform (S := LogSig) (.setLh sectors)

/-- The header block with `n` and `sector[0..n)` overwritten. -/
def putHeader (b : Block) (sectors : List Nat) : Block := setWords (setWord b 0 sectors.length) 1 sectors

/-- `n` and `sector[0..n)` of a header block; `n` is an `int`, so that a word from
    `2^31` on is negative and no sector is read. -/
def getHeader (b : Block) : List Nat :=
  (List.range (if word b 0 < 2 ^ 31 then word b 0 else 0)).map fun i => word b (i + 1)

def install_from (log : LogArea) (tail : Nat) : List Nat → LogProg Unit
  | [] => pure ()
  | sector :: rest => do
    let lbuf ← bread (log.start + tail + 1) -- read log block
    let _ ← bread sector -- read dst
    store sector lbuf -- copy block to dst
    bwrite sector -- write dst to disk
    brelse (log.start + tail + 1)
    brelse sector
    install_from log (tail + 1) rest

def install_trans (log : LogArea) : LogProg Unit := do
  let sectors ← getLh
  install_from log 0 sectors

def read_head (log : LogArea) : LogProg Unit := do
  let buf ← bread log.start
  setLh (getHeader buf)
  brelse log.start

def write_head (log : LogArea) : LogProg Unit := do
  let buf ← bread log.start
  let sectors ← getLh
  store log.start (putHeader buf sectors)
  bwrite log.start
  brelse log.start

def recover_from_log (log : LogArea) : LogProg Unit := do
  read_head log
  install_trans log -- if committed, copy from log to disk
  setLh []
  write_head log -- clear the log

def write_log_from (log : LogArea) (tail : Nat) : List Nat → LogProg Unit
  | [] => pure ()
  | sector :: rest => do
    let _ ← bread (log.start + tail + 1) -- log block
    let source ← bread sector -- cache block
    store (log.start + tail + 1) source
    bwrite (log.start + tail + 1) -- write the log
    brelse sector
    brelse (log.start + tail + 1)
    write_log_from log (tail + 1) rest

def write_log (log : LogArea) : LogProg Unit := do
  let sectors ← getLh
  write_log_from log 0 sectors

def commit (log : LogArea) : LogProg Unit := do
  let sectors ← getLh
  if sectors.length > 0 then do
    write_log log -- Write modified blocks from cache to log
    write_head log -- Write header to disk -- the real commit
    install_trans log -- Now install writes to home locations
    setLh []
    write_head log -- Erase the transaction from the log

theorem word_putHeader_zero (b : Block) (sectors : List Nat) (small : sectors.length < 2 ^ 32) :
    word (putHeader b sectors) 0 = sectors.length := by
  rw [putHeader,word_setWords_other _ _ _ (by omega)]
  exact word_setWord_same _ (by decide) small

/-- What `write_head` writes is what `read_head` reads. -/
theorem getHeader_putHeader (b : Block) (sectors : List Nat) (fits : ∀ s ∈ sectors, s < 2 ^ 32)
    (room : sectors.length ≤ LOGSIZE) : getHeader (putHeader b sectors) = sectors := by
  have inBlock : sectors.length < NINDIRECT := lt_of_le_of_lt room (by decide)
  have small : sectors.length < 2 ^ 31 := lt_of_le_of_lt room (by decide)
  rw [getHeader,word_putHeader_zero _ _ (by omega),if_pos small]
  apply List.ext_getElem
  · simp
  · intro j inside _
    have member : j < sectors.length := by simpa using inside
    have entry := word_setWords_at (setWord b 0 sectors.length) 1 sectors fits (by omega) j member
    simpa [putHeader,Nat.add_comm] using entry

theorem getHeader_empty {b : Block} (none : word b 0 = 0) : getHeader b = [] := by
  simp [getHeader,none]

/-- Log absorption: the sector takes the place of an equal one, or the next free one. -/
def absorb : List Nat → Nat → List Nat
  | [], sector => [sector]
  | s :: rest, sector => if s = sector then sector :: rest else s :: absorb rest sector

theorem absorb_eq (lh : List Nat) (sector : Nat) : absorb lh sector = if sector ∈ lh then lh else lh ++ [sector] := by
  induction lh with
  | nil => rfl
  | cons s rest ih =>
    by_cases same : s = sector
    · simp [absorb,same]
    · simp only [absorb,same,if_false,ih,List.mem_cons,Ne.symm same,false_or]
      split <;> rfl

theorem mem_absorb (lh : List Nat) (sector t : Nat) : t ∈ absorb lh sector ↔ t ∈ lh ∨ t = sector := by
  rw [absorb_eq]
  split
  · rename_i present
    exact ⟨.inl,fun h => h.elim id fun same => same ▸ present⟩
  · simp

theorem nodup_absorb {lh : List Nat} (sector : Nat) (distinct : lh.Nodup) : (absorb lh sector).Nodup := by
  rw [absorb_eq]
  split
  · exact distinct
  · rename_i absent
    exact List.nodup_append.mpr ⟨distinct,by simp,fun a here b isNew => by
      rw [List.mem_singleton.mp isNew]
      rintro rfl
      exact absent here⟩

theorem length_absorb (lh : List Nat) (sector : Nat) :
    (absorb lh sector).length = if sector ∈ lh then lh.length else lh.length + 1 := by
  rw [absorb_eq]
  split <;> simp

end Osce.Log
