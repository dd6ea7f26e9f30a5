import Osce.Lib.Mutex
import Osce.Lib.Steps
import Osce.Layout

/-!
The inode cache of `fs.c`, used by any number of processes at once. Each step is a section
under `icache.lock`, or what a process does between two sections to an inode that it has
to itself. To read or write an inode on disk is one step, since `bread` keeps the buffer
until `brelse`.
-/
namespace Osce.Icache
open Osce.Lib Osce.Layout

abbrev Entry := Fin NINODE

/-- A device and an inode number on it. -/
structure Key where
  dev : Nat
  inum : Nat
  deriving DecidableEq

/-- In-memory copy of an inode. `busy` and `valid` are the flags `I_BUSY` and `I_VALID`. -/
structure Inode where
  key : Key
  ref : Int
  busy : Bool
  valid : Bool
  din : Dinode

/-- What `iput` does to an inode without links, up to its last section. -/
inductive Stage where
  /-- `itrunc` up to its `iupdate`. -/
  | trunc
  | update
  | type
  | free
  | done
  deriving DecidableEq

/-- Where a process stands; `t` is the reference it uses. -/
inductive Pc where
  | idle
  /-- In the loop of `ilock`. -/
  | ilock (e : Entry) (t : Nat)
  /-- In `ilock` with `I_BUSY`, before and after the fields are read. -/
  | load (e : Entry) (t : Nat)
  | loaded (e : Entry) (t : Nat)
  | iput (e : Entry) (t : Nat) (stage : Stage)
  /-- In the loop of `ialloc`, and behind it. -/
  | ialloc (dev inum : Nat) (type : BitVec 16)
  | allocated (k : Key)

def Pc.uses : Pc → Option (Entry × Nat)
  | .ilock e t | .load e t | .loaded e t | .iput e t _ => some (e,t)
  | _ => none

def Pc.drops : Pc → Option (Entry × Nat)
  | .iput e t _ => some (e,t)
  | _ => none

def Pc.has : Pc → Option Entry
  | .load e _ | .loaded e _ | .iput e _ _ => some e
  | _ => none

/-- The cache, the inodes on disk and the processes: where they stand, the inodes they have
    locked, each through a reference, and which of these they have changed since the last
    `iupdate`. `held` are the references obtained and not yet dropped. -/
structure State (P : Type) where
  icache : Entry → Inode
  disk : Key → Dinode
  pc : P → Pc
  locked : P → Entry → Option Nat
  dirty : P → Entry → Bool
  held : Entry → Finset Nat
  next : Nat

def State.init (P : Type) (disk : Key → Dinode) : State P where
  icache _ := ⟨⟨0,0⟩,0,false,false,Dinode.zero⟩
  disk := disk
  pc _ := .idle
  locked _ _ := none
  dirty _ _ := false
  held _ := ∅
  next := 0

/-- The calls of a process, and its next step in one. `modify` stands for assignments to the
    fields of a locked inode. -/
inductive Action (P : Type) where
  | iget (p : P) (k : Key)
  | idup (p : P) (e : Entry) (t : Nat)
  | ilock (p : P) (e : Entry) (t : Nat)
  | iunlock (p : P) (e : Entry)
  | iput (p : P) (e : Entry) (t : Nat)
  | ialloc (p : P) (dev : Nat) (type : BitVec 16)
  | iupdate (p : P) (e : Entry)
  | modify (p : P) (e : Entry) (f : Dinode → Dinode)
  | turn (p : P)

def cached (icache : Entry → Inode) (k : Key) : Option Entry :=
  (List.finRange NINODE).find? fun e => (icache e).ref > 0 ∧ (icache e).key = k

def empty (icache : Entry → Inode) : Option Entry := (List.finRange NINODE).find? fun e => (icache e).ref = 0

abbrev Result (P : Type) := Option (Except String (State P))

section
variable {P : Type} [DecidableEq P]

namespace State

def goto (s : State P) (p : P) (pc : Pc) : State P := { s with pc := Function.update s.pc p pc }
def setInode (s : State P) (e : Entry) (ip : Inode) : State P := { s with icache := Function.update s.icache e ip }

def obtains (s : State P) (e : Entry) : State P :=
  { s with held := Function.update s.held e (insert s.next (s.held e)), next := s.next + 1 }

def drop (s : State P) (e : Entry) (t : Nat) : State P :=
  { s with held := Function.update s.held e ((s.held e).erase t) }

def setLocked (s : State P) (p : P) (e : Entry) (t : Option Nat) : State P :=
  { s with locked := Function.update s.locked p (Function.update (s.locked p) e t) }

def setDirty (s : State P) (p : P) (e : Entry) (v : Bool) : State P :=
  { s with dirty := Function.update s.dirty p (Function.update (s.dirty p) e v) }

def get (s : State P) (k : Key) : Result P :=
  match cached s.icache k with
  -- Is the inode already cached?
  | some e => some (.ok ((s.setInode e { s.icache e with ref := (s.icache e).ref + 1 }).obtains e))
  -- Recycle an inode cache entry.
  | none =>
    match empty s.icache with
    | some e => some (.ok ((s.setInode e { s.icache e with key := k, ref := 1, busy := false, valid := false }).obtains e))
    | none => some (.error "iget: no inodes")

def returns (s : State P) (p : P) (e : Entry) (t : Nat) : State P := ((s.setLocked p e (some t)).setDirty p e false).goto p .idle

def write (s : State P) (e : Entry) : State P := { s with disk := Function.update s.disk (s.icache e).key (s.icache e).din }

def turn (s : State P) (ninodes : Nat → Nat) (p : P) : Result P :=
  match s.pc p with
  | .idle => none
  | .ilock e t =>
    if (s.icache e).busy then none else some (.ok ((s.setInode e { s.icache e with busy := true }).goto p (.load e t)))
  | .load e t =>
    if (s.icache e).valid then some (.ok (s.returns p e t))
    else some (.ok ((s.setInode e { s.icache e with din := s.disk (s.icache e).key }).goto p (.loaded e t)))
  | .loaded e t =>
    if (s.icache e).din.type = 0 then some (.error "ilock: no type")
    else some (.ok ((s.setInode e { s.icache e with valid := true }).returns p e t))
  | .iput e t .trunc =>
    let d := (s.icache e).din
    some (.ok ((s.setInode e { s.icache e with
      din := { d with addrs := fun i => if i ≤ NDIRECT then 0 else d.addrs i, size := 0 } }).goto p (.iput e t .update)))
  | .iput e t .update => some (.ok ((s.write e).goto p (.iput e t .type)))
  | .iput e t .type =>
    some (.ok ((s.setInode e { s.icache e with din := { (s.icache e).din with type := 0 } }).goto p (.iput e t .free)))
  | .iput e t .free => some (.ok ((s.write e).goto p (.iput e t .done)))
  | .iput e t .done =>
    some (.ok (((s.setInode e { s.icache e with busy := false, valid := false, ref := (s.icache e).ref - 1 }).drop e t).goto p .idle))
  | .ialloc dev inum type =>
    if inum < ninodes dev then
      if (s.disk ⟨dev,inum⟩).type = 0 then -- a free inode
        some (.ok ({ s with disk := Function.update s.disk ⟨dev,inum⟩ { Dinode.zero with type := type } }.goto p (.allocated ⟨dev,inum⟩)))
      else some (.ok (s.goto p (.ialloc dev (inum + 1) type)))
    else some (.error "ialloc: no inodes")
  | .allocated k => (s.goto p .idle).get k

end State

def step (ninodes : Nat → Nat) (s : State P) : Action P → Result P
  | .turn p => s.turn ninodes p
  | .iget p k => match s.pc p with
    | .idle => s.get k
    | _ => none
  | .idup p e _ => match s.pc p with
    | .idle => some (.ok ((s.setInode e { s.icache e with ref := (s.icache e).ref + 1 }).obtains e))
    | _ => none
  | .ilock p e t => match s.pc p with
    | .idle => if (s.icache e).ref < 1 then some (.error "ilock") else some (.ok (s.goto p (.ilock e t)))
    | _ => none
  | .iunlock p e => match s.pc p with
    | .idle =>
      if (s.icache e).busy = false ∨ (s.icache e).ref < 1 then some (.error "iunlock")
      else some (.ok ((s.setInode e { s.icache e with busy := false }).setLocked p e none))
    | _ => none
  | .iput p e t => match s.pc p with
    | .idle =>
      if (s.icache e).ref = 1 ∧ (s.icache e).valid = true ∧ (s.icache e).din.nlink = 0 then
        -- inode has no links and no other references: truncate and free.
        if (s.icache e).busy then some (.error "iput busy")
        else some (.ok ((s.setInode e { s.icache e with busy := true }).goto p (.iput e t .trunc)))
      else some (.ok ((s.setInode e { s.icache e with ref := (s.icache e).ref - 1 }).drop e t))
    | _ => none
  | .ialloc p dev type => match s.pc p with
    | .idle => some (.ok (s.goto p (.ialloc dev 1 type)))
    | _ => none
  | .iupdate p e => match s.pc p with
    | .idle => some (.ok ((s.write e).setDirty p e false))
    | _ => none
  | .modify p e f => match s.pc p with
    | .idle => some (.ok ((s.setInode e { s.icache e with din := f (s.icache e).din }).setDirty p e true))
    | _ => none

/-- A process uses a reference: it has locked an inode through it, or is in a call with it. -/
def State.Uses (s : State P) (p : P) (e : Entry) (t : Nat) : Prop := s.locked p e = some t ∨ (s.pc p).uses = some (e,t)

/-- How the processes go about it: they use references that are not being dropped, and drop
    those that nobody uses; they work on inodes that they have locked, never change a
    type, and call `iupdate` before they unlock. -/
def State.Permits (s : State P) : Action P → Prop
  | .idup _ e t | .ilock _ e t => t ∈ s.held e ∧ ∀ q, (s.pc q).drops ≠ some (e,t)
  | .iunlock p e => s.locked p e ≠ none ∧ s.dirty p e = false
  | .iput _ e t => t ∈ s.held e ∧ ∀ q, ¬ s.Uses q e t
  | .ialloc _ _ type => type ≠ 0
  | .iupdate p e => s.locked p e ≠ none
  | .modify p e f => s.locked p e ≠ none ∧ (f (s.icache e).din).type = (s.icache e).din.type
  | .iget _ _ | .turn _ => True

def Reachable (ninodes : Nat → Nat) (disk : Key → Dinode) : State P → Prop :=
  Steps.Reachable (step ninodes) State.Permits (State.init P disk)

end

end Osce.Icache
