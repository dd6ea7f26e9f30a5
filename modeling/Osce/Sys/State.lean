import Osce.Lib.Sessions
import Osce.Sys.Code

/-!
The tables of the kernel that the system calls work on, what each operation does to them,
and the runs of any number of processes that make system calls. The copy of an inode in
the cache is left out: while an inode is locked and not being changed it is the
one on disk (`Osce.Icache`).
-/
namespace Osce.Sys
open Osce.Lib Osce.Layout
open Osce.Procs (NPROC ProcState)

/-- An entry of the inode cache. `busy` and `valid` are the flags `I_BUSY` and `I_VALID`. -/
structure Cached where
  inum : Nat
  ref : Int
  busy : Bool
  valid : Bool

structure OpenFile where
  ref : Int
  kind : FileKind

/-- A page that `kalloc` has given out for a pipe, and how often it was freed. Pages are numbered
    in the order of their allocation, so that one that is used again counts as a new one. -/
structure Pipe where
  readopen : Bool
  writeopen : Bool
  frees : Nat

structure ProcEntry where
  state : ProcState
  pid : Nat
  parent : Option Proc
  ofile : Fd → Option File
  cwd : Option Entry

structure State where
  icache : Entry → Cached
  inodes : Nat → Inode
  ftable : File → OpenFile
  pipes : Nat → Pipe
  npipes : Nat
  procs : Proc → ProcEntry
  nextpid : Nat
  /-- What the rest of the kernel answers next: memory and blocks are left, a file can be executed,
      a process has been killed. -/
  answer : Bool

def cached (icache : Entry → Cached) (inum : Nat) : Option Entry :=
  (List.finRange NINODE).find? fun e => (icache e).ref > 0 ∧ (icache e).inum = inum

def emptyEntry (icache : Entry → Cached) : Option Entry := (List.finRange NINODE).find? fun e => (icache e).ref = 0

def freeFile (ftable : File → OpenFile) : Option File := (List.finRange NFILE).find? fun f => (ftable f).ref = 0

def unusedProc (procs : Proc → ProcEntry) : Option Proc := (List.finRange NPROC).find? fun p => (procs p).state = .UNUSED

/-- `initproc`, the first entry that `allocproc` gives out. -/
def initproc : Proc := Procs.initproc

namespace State

def setEntry (s : State) (e : Entry) (ip : Cached) : State := { s with icache := Function.update s.icache e ip }
def setInode (s : State) (inum : Nat) (d : Inode) : State := { s with inodes := Function.update s.inodes inum d }
def setOpen (s : State) (f : File) (file : OpenFile) : State := { s with ftable := Function.update s.ftable f file }
def setPipe (s : State) (p : Nat) (pipe : Pipe) : State := { s with pipes := Function.update s.pipes p pipe }
def setProc (s : State) (p : Proc) (entry : ProcEntry) : State := { s with procs := Function.update s.procs p entry }

def dinode (s : State) (e : Entry) : Inode := s.inodes (s.icache e).inum

def wait (s : State) (p : Proc) : Except Stop (Option Nat × State) :=
  match (List.finRange NPROC).find? fun c => (s.procs c).parent = some p ∧ (s.procs c).state = .ZOMBIE with
  | some c => -- Found one.
    .ok (some (s.procs c).pid,s.setProc c { s.procs c with state := .UNUSED, pid := 0, parent := none })
  | none =>
    -- No point waiting if we don't have any children.
    if (∀ c, (s.procs c).parent ≠ some p) ∨ s.answer = true then .ok (none,s) else .error .sleep

def zombie (s : State) (p : Proc) : State :=
  { s with procs := fun q =>
      let entry := if (s.procs q).parent = some p then { s.procs q with parent := some initproc } else s.procs q
      if q = p then { entry with state := .ZOMBIE } else entry }

end State

/-- A slot of a directory written; the one behind the last makes it longer. -/
def putEntry (des : List Dirent) (slot : Nat) (de : Dirent) : List Dirent :=
  if slot < des.length then des.set slot de else des ++ [de]

def handle (p : Proc) : Handler SysSig State
  | .begin_op, s => .ok ((),s)
  | .end_op, s => .ok ((),s)
  | .choose, s => .ok (s.answer,s)
  | .iget inum, s =>
    match cached s.icache inum with
    | some e => .ok (e,s.setEntry e { s.icache e with ref := (s.icache e).ref + 1 })
    | none =>
      match emptyEntry s.icache with
      | some e => .ok (e,s.setEntry e ⟨inum,1,false,false⟩)
      | none => .error (.panic "iget: no inodes")
  | .idup e, s => .ok ((),s.setEntry e { s.icache e with ref := (s.icache e).ref + 1 })
  | .lock e, s =>
    if (s.icache e).ref < 1 then .error (.panic "ilock")
    else if (s.icache e).busy then .error .sleep
    else .ok ((),s.setEntry e { s.icache e with busy := true })
  | .load e, s =>
    if (s.icache e).valid then .ok (s.dinode e,s)
    else if (s.dinode e).type = 0 then .error (.panic "ilock: no type")
    else .ok (s.dinode e,s.setEntry e { s.icache e with valid := true })
  | .inum e, s => .ok ((s.icache e).inum,s)
  | .inode e, s => .ok (s.dinode e,s)
  | .dirents e, s => .ok ((s.dinode e).entries,s)
  | .update e f, s => .ok ((),s.setInode (s.icache e).inum (f (s.dinode e)))
  | .writeEntry e slot de, s =>
    if slot > (s.dinode e).entries.length ∨ (slot + 1) * DESIZE > MAXFILE * BSIZE then .ok (false,s)
    else if slot = (s.dinode e).entries.length ∧ slot * DESIZE % BSIZE = 0 ∧ s.answer = false then
      .error (.panic "balloc: out of blocks")
    else .ok (true,s.setInode (s.icache e).inum { s.dinode e with entries := putEntry (s.dinode e).entries slot de })
  | .unlock e, s =>
    if (s.icache e).busy = false ∨ (s.icache e).ref < 1 then .error (.panic "iunlock")
    else .ok ((),s.setEntry e { s.icache e with busy := false })
  | .putBegin e, s =>
    if (s.icache e).ref = 1 ∧ (s.icache e).valid = true ∧ (s.dinode e).nlink = 0 then
      -- inode has no links and no other references: truncate and free.
      if (s.icache e).busy then .error (.panic "iput busy")
      else .ok (true,s.setEntry e { s.icache e with busy := true })
    else .ok (false,s.setEntry e { s.icache e with ref := (s.icache e).ref - 1 })
  | .free e, s => .ok ((),s.setInode (s.icache e).inum { s.dinode e with type := 0, entries := [] })
  | .putEnd e, s => .ok ((),s.setEntry e { s.icache e with busy := false, valid := false, ref := (s.icache e).ref - 1 })
  | .claim inum type, s =>
    if (s.inodes inum).type = 0 then .ok (true,s.setInode inum ⟨type,0,0,0,[]⟩) else .ok (false,s)
  | .filealloc, s =>
    match freeFile s.ftable with
    | some f => .ok (some f,s.setOpen f { s.ftable f with ref := 1 })
    | none => .ok (none,s)
  | .filedup f, s =>
    if (s.ftable f).ref < 1 then .error (.panic "filedup")
    else .ok ((),s.setOpen f { s.ftable f with ref := (s.ftable f).ref + 1 })
  | .closeFile f, s =>
    if (s.ftable f).ref < 1 then .error (.panic "fileclose")
    else if (s.ftable f).ref - 1 > 0 then .ok (none,s.setOpen f { s.ftable f with ref := (s.ftable f).ref - 1 })
    else .ok (some (s.ftable f).kind,s.setOpen f ⟨0,.FD_NONE⟩)
  | .setFile f kind, s => .ok ((),s.setOpen f { s.ftable f with kind := kind })
  | .kalloc, s =>
    if s.answer then .ok (some s.npipes,{ s.setPipe s.npipes ⟨false,false,0⟩ with npipes := s.npipes + 1 }) else .ok (none,s)
  | .kfree pipe, s => .ok ((),s.setPipe pipe { s.pipes pipe with frees := (s.pipes pipe).frees + 1 })
  | .openPipe pipe, s => .ok ((),s.setPipe pipe { s.pipes pipe with readopen := true, writeopen := true })
  | .closePipe pipe writable, s =>
    let pi := if writable then { s.pipes pipe with writeopen := false } else { s.pipes pipe with readopen := false }
    .ok (!pi.readopen && !pi.writeopen,s.setPipe pipe pi)
  | .ofile fd, s => .ok ((s.procs p).ofile fd,s)
  | .setOfile fd f, s => .ok ((),s.setProc p { s.procs p with ofile := Function.update (s.procs p).ofile fd f })
  | .cwd, s => .ok ((s.procs p).cwd,s)
  | .setCwd ip, s => .ok ((),s.setProc p { s.procs p with cwd := ip })
  | .isInit, s => .ok (decide (p = initproc),s)
  | .allocproc, s =>
    match unusedProc s.procs with
    | some np =>
      .ok (some (np,s.nextpid),{ s.setProc np { s.procs np with state := .EMBRYO, pid := s.nextpid } with nextpid := s.nextpid + 1 })
    | none => .ok (none,s)
  | .unalloc np, s => .ok ((),s.setProc np { s.procs np with state := .UNUSED })
  | .setParent np, s => .ok ((),s.setProc np { s.procs np with parent := some p })
  | .giveFile np fd f, s =>
    .ok ((),s.setProc np { s.procs np with ofile := Function.update (s.procs np).ofile fd (some f) })
  | .giveCwd np ip, s => .ok ((),s.setProc np { s.procs np with cwd := some ip })
  | .runnable np, s => .ok ((),s.setProc np { s.procs np with state := .RUNNABLE })
  | .wait, s => s.wait p
  | .panic message, _ => .error (.panic message)

/-- A run is made of the calls of all processes, in any interleaving of their operations. Scheduling
    is left out, so that a process that has begun is `RUNNABLE` until it ends. -/
def rules (handle : Proc → Handler SysSig State) : Rules SysSig State Proc Call Int where
  handle := handle
  code := Call.code
  begins p c s s' := c.Clean ∧ (s.procs p).state = .RUNNABLE ∧ s' = s
  ends p c _ s s' := s' = match c with
    | .exit => s.zombie p
    | _ => s
  moves s s' := ∃ answer, s' = { s with answer := answer }

/-- After `userinit`, with any inodes on disk. -/
def State.boot (inodes : Nat → Inode) : State where
  icache e := if e.val = 0 then ⟨ROOTINO,1,false,false⟩ else ⟨0,0,false,false⟩
  inodes := inodes
  ftable _ := ⟨0,.FD_NONE⟩
  pipes _ := ⟨false,false,0⟩
  npipes := 0
  procs p := if p = initproc then ⟨.RUNNABLE,1,none,fun _ => none,some ⟨0,by decide⟩⟩ else ⟨.UNUSED,0,none,fun _ => none,none⟩
  nextpid := 2
  answer := true

abbrev World := Sessions SysSig State Proc Call Int

def Reachable (inodes : Nat → Inode) : World → Prop :=
  Sessions.Reachable (rules handle) ⟨fun _ => none,State.boot inodes⟩

def State.leave (s : State) (p : Proc) : Call → State
  | .exit => s.zombie p
  | _ => s

def State.run : List (Proc × Call) → State → Option State
  | [], s => some s
  | (p,c) :: rest, s =>
    if c.Clean ∧ (s.procs p).state = .RUNNABLE then
      match Prog.exec (handle p) c.code s with
      | .ok (_,s') => run rest (s'.leave p c)
      | .error _ => none
    else none

theorem reachable_run_from {inodes : Nat → Inode} {s s' : State} {calls : List (Proc × Call)}
    (before : Reachable inodes ⟨fun _ => none,s⟩) (ran : s.run calls = some s') : Reachable inodes ⟨fun _ => none,s'⟩ := by
  induction calls generalizing s with
  | nil =>
    cases ran
    exact before
  | cons call rest ih =>
    obtain ⟨p,c⟩ := call
    simp only [State.run] at ran
    split at ran
    · rename_i begun
      split at ran
      · rename_i a s₁ done
        refine ih (Sessions.reachable_call before rfl ⟨begun.1,begun.2,rfl⟩ done ?_) ran
        cases c <;> rfl
      · cases ran
    · cases ran

theorem reachable_run {inodes : Nat → Inode} {s : State} {calls : List (Proc × Call)}
    (ran : (State.boot inodes).run calls = some s) : Reachable inodes ⟨fun _ => none,s⟩ :=
  reachable_run_from .start ran

end Osce.Sys
