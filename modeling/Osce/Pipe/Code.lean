import Osce.Lib.Mutex
import Osce.Lib.Ring
import Osce.Lib.Steps

/-!
Pipes: `pipewrite`, `piperead` and `pipeclose` of `pipe.c` with the parts of `sleep`,
`wakeup` and `kill` that they meet. Any number of processes are in these functions for
one pipe, and each step is one turn of a loop, one call or the taking of a lock.
-/
namespace Osce.Pipes
open Osce.Lib Function

def PIPESIZE : Nat := 512

structure Pipe where
  data : Nat → UInt8
  nread : BitVec 32
  nwrite : BitVec 32
  readopen : Bool
  writeopen : Bool

namespace Pipe

def content (p : Pipe) : List UInt8 := Ring.content PIPESIZE p.data p.nread p.nwrite

def count (p : Pipe) : Nat := Ring.count p.nread p.nwrite

/-- `p->nwrite == p->nread + PIPESIZE` -/
def full (p : Pipe) : Bool := p.nwrite == p.nread + BitVec.ofNat 32 PIPESIZE

/-- `p->nread == p->nwrite` -/
def empty (p : Pipe) : Bool := p.nread == p.nwrite

/-- `p->data[p->nwrite++ % PIPESIZE] = b` -/
def put (p : Pipe) (b : UInt8) : Pipe :=
  { p with data := Function.update p.data (p.nwrite.toNat % PIPESIZE) b, nwrite := p.nwrite + 1 }

/-- `p->data[p->nread++ % PIPESIZE]` -/
def get (p : Pipe) : UInt8 × Pipe := (p.data (p.nread.toNat % PIPESIZE),{ p with nread := p.nread + 1 })

def close (p : Pipe) (writable : Bool) : Pipe :=
  if writable then { p with writeopen := false } else { p with readopen := false }

end Pipe

/-- Where a process stands: the arguments of the function it is in, and how far it is. -/
inductive Pc where
  | outside
  /-- In `pipewrite` with `i` bytes stored, before `acquire`, also the one in `sleep`. -/
  | wantsWrite (addr : Nat → UInt8) (n : Int) (i : Nat)
  /-- At the tests of the loops of `pipewrite`. -/
  | write (addr : Nat → UInt8) (n : Int) (i : Nat)
  /-- Past the `wakeup` in the loop, before `sleep`. -/
  | writeFull (addr : Nat → UInt8) (n : Int) (i : Nat)
  /-- In `sleep`: it has `ptable.lock` and has given up `p->lock`. -/
  | writeFalls (addr : Nat → UInt8) (n : Int) (i : Nat)
  /-- `SLEEPING` on `&p->nwrite`. -/
  | writeAsleep (addr : Nat → UInt8) (n : Int) (i : Nat)
  /-- Past the loop, before the last `wakeup`. -/
  | writeDone (n : Int)
  /-- Before the last `release`, with the value to return. -/
  | writeReturn (r : Int)
  /-- In `piperead`, before `acquire`, also the one in `sleep`. -/
  | wantsRead (n : Int)
  /-- At the test of the first loop of `piperead`. -/
  | read (n : Int)
  | readFalls (n : Int)
  /-- `SLEEPING` on `&p->nread`. -/
  | readAsleep (n : Int)
  /-- In the second loop, with the bytes copied so far. -/
  | copy (n : Int) (got : List UInt8)
  /-- Before the last `release`, with the bytes read or `none` for -1. -/
  | readReturn (n : Int) (got : Option (List UInt8))
  | wantsClose (writable : Bool)
  | close (writable : Bool)
  /-- The end is closed, before the `wakeup`. -/
  | closing (writable : Bool)
  | closed

def Pc.Inside : Pc → Prop
  | .write _ _ _ => True
  | .writeFull _ _ _ => True
  | .writeDone _ => True
  | .writeReturn _ => True
  | .read _ => True
  | .copy _ _ => True
  | .readReturn _ _ => True
  | .close _ => True
  | .closing _ => True
  | .closed => True
  | _ => False

def Pc.Falls : Pc → Prop
  | .writeFalls _ _ _ => True
  | .readFalls _ => True
  | _ => False

/-- `SLEEPING` on `&p->nread`, or about to be. -/
def Pc.WaitsRead : Pc → Prop
  | .readFalls _ => True
  | .readAsleep _ => True
  | _ => False

/-- `SLEEPING` on `&p->nwrite`, or about to be. -/
def Pc.WaitsWrite : Pc → Prop
  | .writeFalls _ _ _ => True
  | .writeAsleep _ _ _ => True
  | _ => False

/-- The pipe, who has `p->lock` and `ptable.lock`, the processes and their `killed` flags,
    and whether the page of the pipe has been freed. The rest is history: the bytes stored
    and what each `piperead` has returned. -/
structure State (P : Type) where
  pipe : Pipe
  lock : Option P
  table : Option P
  pc : P → Pc
  killed : P → Bool
  freed : Bool
  stored : List UInt8
  reads : List (List UInt8)

variable {P : Type} [DecidableEq P]

/-- The pipe of `pipealloc`; the page holds any data. -/
def State.init (P : Type) (data : Nat → UInt8) (killed : P → Bool) : State P :=
  ⟨⟨data,0,0,true,true⟩,none,none,fun _ => .outside,killed,false,[],[]⟩

inductive Action (P : Type) where
  | pipewrite (q : P) (addr : Nat → UInt8) (n : Int)
  | piperead (q : P) (n : Int)
  | pipeclose (q : P) (writable : Bool)
  | kill (q : P)
  | turn (q : P)

def wakeRead : Pc → Pc
  | .readAsleep n => .wantsRead n
  | pc => pc

def wakeWrite : Pc → Pc
  | .writeAsleep addr n i => .wantsWrite addr n i
  | pc => pc

namespace State

def goto (s : State P) (q : P) (pc : Pc) : State P := { s with pc := Function.update s.pc q pc }

/-- `wakeup`, which takes `ptable.lock`, and where the process goes on. -/
def wakes (s : State P) (q : P) (wake : Pc → Pc) (pc : Pc) : Option (State P) :=
  match s.table with
  | none => some { s with pc := Function.update (fun r => wake (s.pc r)) q pc }
  | some _ => none

/-- `sleep` takes `ptable.lock` and gives up `p->lock`. -/
def falls (s : State P) (q : P) (pc : Pc) : Option (State P) :=
  match s.table with
  | none => some { s.goto q pc with lock := none, table := some q }
  | some _ => none

/-- `release(&p->lock)` and the end of the function. -/
def leaves (s : State P) (q : P) : State P := { s.goto q .outside with lock := none }

/-- `acquire(&p->lock)`; the page of the pipe is not used any more when it is freed. -/
def acquires (s : State P) (q : P) (pc : Pc) : Option (State P) :=
  if s.lock = none ∧ s.freed = false then some { s.goto q pc with lock := some q } else none

def turn (s : State P) (q : P) : Option (State P) :=
  match s.pc q with
  | .outside => none
  | .wantsWrite addr n i => s.acquires q (.write addr n i)
  | .write addr n i =>
    if i < n then
      if s.pipe.full then
        if s.pipe.readopen = false ∨ s.killed q = true then some (s.goto q (.writeReturn (-1)))
        else s.wakes q wakeRead (.writeFull addr n i)
      else some { s.goto q (.write addr n (i + 1)) with pipe := s.pipe.put (addr i), stored := s.stored ++ [addr i] }
    else some (s.goto q (.writeDone n))
  | .writeFull addr n i => s.falls q (.writeFalls addr n i)
  | .writeFalls addr n i => some { s.goto q (.writeAsleep addr n i) with table := none }
  | .writeAsleep _ _ _ => none
  | .writeDone n => s.wakes q wakeRead (.writeReturn n)
  | .writeReturn _ => some (s.leaves q)
  | .wantsRead n => s.acquires q (.read n)
  | .read n =>
    if s.pipe.empty ∧ s.pipe.writeopen then
      if s.killed q then some (s.goto q (.readReturn n none))
      else s.falls q (.readFalls n)
    else some (s.goto q (.copy n []))
  | .readFalls n => some { s.goto q (.readAsleep n) with table := none }
  | .readAsleep _ => none
  | .copy n got =>
    if got.length < n ∧ s.pipe.empty = false then
      some { s.goto q (.copy n (got ++ [s.pipe.get.1])) with pipe := s.pipe.get.2 }
    else s.wakes q wakeWrite (.readReturn n (some got))
  | .readReturn _ got => some { s.leaves q with reads := s.reads ++ got.toList }
  | .wantsClose writable => s.acquires q (.close writable)
  | .close writable => some { s.goto q (.closing writable) with pipe := s.pipe.close writable }
  | .closing writable => s.wakes q (if writable then wakeRead else wakeWrite) .closed
  | .closed => some { s.leaves q with freed := !s.pipe.readopen && !s.pipe.writeopen }

def begins (s : State P) (q : P) (pc : Pc) : Option (State P) :=
  match s.pc q with
  | .outside => some (s.goto q pc)
  | _ => none

end State

def step (s : State P) (a : Action P) : Option (Except String (State P)) :=
  (match a with
  | .pipewrite q addr n => s.begins q (.wantsWrite addr n 0)
  | .piperead q n => s.begins q (.wantsRead n)
  | .pipeclose q writable => s.begins q (.wantsClose writable)
  | .kill q =>
    match s.table with
    | none => some { s with
        pc := Function.update s.pc q (wakeWrite (wakeRead (s.pc q)))
        killed := Function.update s.killed q true }
    | some _ => none
  | .turn q => s.turn q).map Except.ok

def Reachable (data : Nat → UInt8) (killed : P → Bool) : State P → Prop :=
  Steps.Reachable step (fun _ _ => True) (State.init P data killed)

/-- The places from which a process takes `p->lock`, each with the one it goes on at. -/
inductive Enters : Pc → Pc → Prop where
  | write {addr : Nat → UInt8} {n : Int} {i : Nat} : Enters (.wantsWrite addr n i) (.write addr n i)
  | read {n : Int} : Enters (.wantsRead n) (.read n)
  | close {writable : Bool} : Enters (.wantsClose writable) (.close writable)

inductive Moves (s : State P) : Action P → State P → Prop where
  | begins {a : Action P} {q : P} {pc pc' : Pc} (here : s.pc q = .outside) (wants : Enters pc pc') : Moves s a (s.goto q pc)
  | kill {q : P} (free : s.table = none) :
      Moves s (.kill q) { s with
        pc := Function.update s.pc q (wakeWrite (wakeRead (s.pc q)))
        killed := Function.update s.killed q true }
  | acquires {q : P} {pc : Pc} (enters : Enters (s.pc q) pc) (free : s.lock = none) :
      Moves s (.turn q) { s.goto q pc with lock := some q }
  | gives_up {q : P} {addr : Nat → UInt8} {n : Int} {i : Nat} (here : s.pc q = .write addr n i) (more : i < n)
      (full : s.pipe.full = true) (fails : s.pipe.readopen = false ∨ s.killed q = true) :
      Moves s (.turn q) (s.goto q (.writeReturn (-1)))
  | fills {q : P} {addr : Nat → UInt8} {n : Int} {i : Nat} (here : s.pc q = .write addr n i) (full : s.pipe.full = true)
      (isOpen : s.pipe.readopen = true) (free : s.table = none) :
      Moves s (.turn q) { s with pc := Function.update (fun r => wakeRead (s.pc r)) q (.writeFull addr n i) }
  | puts {q : P} {addr : Nat → UInt8} {n : Int} {i : Nat} (here : s.pc q = .write addr n i) (room : s.pipe.full = false) :
      Moves s (.turn q) { s.goto q (.write addr n (i + 1)) with
        pipe := s.pipe.put (addr i)
        stored := s.stored ++ [addr i] }
  | done {q : P} {addr : Nat → UInt8} {n : Int} {i : Nat} (here : s.pc q = .write addr n i) :
      Moves s (.turn q) (s.goto q (.writeDone n))
  | write_falls {q : P} {addr : Nat → UInt8} {n : Int} {i : Nat} (here : s.pc q = .writeFull addr n i) (free : s.table = none) :
      Moves s (.turn q) { s.goto q (.writeFalls addr n i) with lock := none, table := some q }
  | write_sleeps {q : P} {addr : Nat → UInt8} {n : Int} {i : Nat} (here : s.pc q = .writeFalls addr n i) :
      Moves s (.turn q) { s.goto q (.writeAsleep addr n i) with table := none }
  | write_wakes {q : P} {n : Int} (here : s.pc q = .writeDone n) (free : s.table = none) :
      Moves s (.turn q) { s with pc := Function.update (fun r => wakeRead (s.pc r)) q (.writeReturn n) }
  | write_returns {q : P} {r : Int} (here : s.pc q = .writeReturn r) : Moves s (.turn q) (s.leaves q)
  | read_killed {q : P} {n : Int} (here : s.pc q = .read n) : Moves s (.turn q) (s.goto q (.readReturn n none))
  | read_falls {q : P} {n : Int} (here : s.pc q = .read n) (empty : s.pipe.empty = true) (isOpen : s.pipe.writeopen = true)
      (free : s.table = none) :
      Moves s (.turn q) { s.goto q (.readFalls n) with lock := none, table := some q }
  | read_sleeps {q : P} {n : Int} (here : s.pc q = .readFalls n) :
      Moves s (.turn q) { s.goto q (.readAsleep n) with table := none }
  | copies {q : P} {n : Int} (here : s.pc q = .read n) (ready : ¬ (s.pipe.empty = true ∧ s.pipe.writeopen = true)) :
      Moves s (.turn q) (s.goto q (.copy n []))
  | gets {q : P} {n : Int} {got : List UInt8} (here : s.pc q = .copy n got) (some : s.pipe.empty = false) :
      Moves s (.turn q) { s.goto q (.copy n (got ++ [s.pipe.get.1])) with pipe := s.pipe.get.2 }
  | read_wakes {q : P} {n : Int} {got : List UInt8} (here : s.pc q = .copy n got)
      (last : ¬ (got.length < n ∧ s.pipe.empty = false)) (free : s.table = none) :
      Moves s (.turn q) { s with pc := Function.update (fun r => wakeWrite (s.pc r)) q (.readReturn n (some got)) }
  | read_returns {q : P} {n : Int} {got : Option (List UInt8)} (here : s.pc q = .readReturn n got) :
      Moves s (.turn q) { s.leaves q with reads := s.reads ++ got.toList }
  | closes {q : P} {writable : Bool} (here : s.pc q = .close writable) :
      Moves s (.turn q) { s.goto q (.closing writable) with pipe := s.pipe.close writable }
  | close_wakes {q : P} {writable : Bool} (here : s.pc q = .closing writable) (free : s.table = none) :
      Moves s (.turn q) { s with
        pc := Function.update (fun r => (if writable then wakeRead else wakeWrite) (s.pc r)) q .closed }
  | close_returns {q : P} {freed : Bool} (here : s.pc q = .closed) : Moves s (.turn q) { s.leaves q with freed := freed }

section
variable {s s' : State P} {q : P} {pc : Pc} {wake : Pc → Pc}

theorem wakes_some (taken : s.wakes q wake pc = some s') :
    s.table = none ∧ s' = { s with pc := update (fun r => wake (s.pc r)) q pc } := by
  unfold State.wakes at taken
  split at taken
  · exact ⟨‹_›,(Option.some.inj taken).symm⟩
  · cases taken

theorem falls_some (taken : s.falls q pc = some s') :
    s.table = none ∧ s' = { s.goto q pc with lock := none, table := some q } := by
  unfold State.falls at taken
  split at taken
  · exact ⟨‹_›,(Option.some.inj taken).symm⟩
  · cases taken

theorem acquires_some (taken : s.acquires q pc = some s') : s.lock = none ∧ s' = { s.goto q pc with lock := some q } := by
  unfold State.acquires at taken
  split at taken
  · rename_i free
    exact ⟨free.1,(Option.some.inj taken).symm⟩
  · cases taken

theorem begins_some (taken : s.begins q pc = some s') : s.pc q = .outside ∧ s' = s.goto q pc := by
  unfold State.begins at taken
  split at taken
  · exact ⟨‹_›,(Option.some.inj taken).symm⟩
  · cases taken

theorem moves_of_turn (taken : s.turn q = some s') : Moves s (.turn q) s' := by
  unfold State.turn at taken
  split at taken
  case h_1 => cases taken
  case h_2 addr n i here =>
    obtain ⟨free,rfl⟩ := acquires_some taken
    exact .acquires (here ▸ .write) free
  case h_3 addr n i here =>
    split at taken
    · split at taken
      · split at taken
        · cases taken
          exact .gives_up here ‹_› ‹_› ‹_›
        · rename_i fine
          obtain ⟨free,rfl⟩ := wakes_some taken
          exact .fills here ‹_› (by simpa using fun h => fine (.inl h)) free
      · cases taken
        exact .puts here (by simpa using ‹¬ s.pipe.full = true›)
    · cases taken
      exact .done here
  case h_4 addr n i here =>
    obtain ⟨free,rfl⟩ := falls_some taken
    exact .write_falls here free
  case h_5 addr n i here =>
    cases taken
    exact .write_sleeps here
  case h_6 => cases taken
  case h_7 n here =>
    obtain ⟨free,rfl⟩ := wakes_some taken
    exact .write_wakes here free
  case h_8 r here =>
    cases taken
    exact .write_returns here
  case h_9 n here =>
    obtain ⟨free,rfl⟩ := acquires_some taken
    exact .acquires (here ▸ .read) free
  case h_10 n here =>
    split at taken
    · rename_i waits
      split at taken
      · cases taken
        exact .read_killed here
      · obtain ⟨free,rfl⟩ := falls_some taken
        exact .read_falls here waits.1 waits.2 free
    · cases taken
      exact .copies here ‹_›
  case h_11 n here =>
    cases taken
    exact .read_sleeps here
  case h_12 => cases taken
  case h_13 n got here =>
    split at taken
    · rename_i more
      cases taken
      exact .gets here more.2
    · obtain ⟨free,rfl⟩ := wakes_some taken
      exact .read_wakes here ‹_› free
  case h_14 n got here =>
    cases taken
    exact .read_returns here
  case h_15 writable here =>
    obtain ⟨free,rfl⟩ := acquires_some taken
    exact .acquires (here ▸ .close) free
  case h_16 writable here =>
    cases taken
    exact .closes here
  case h_17 writable here =>
    obtain ⟨free,rfl⟩ := wakes_some taken
    exact .close_wakes here free
  case h_18 here =>
    cases taken
    exact .close_returns here

theorem moves_of_step {a : Action P} (taken : step s a = some (.ok s')) : Moves s a s' := by
  obtain ⟨_,taken,same⟩ := Option.map_eq_some_iff.mp taken
  cases same
  cases a with
  | pipewrite q addr n =>
    obtain ⟨here,rfl⟩ := begins_some taken
    exact .begins here .write
  | piperead q n =>
    obtain ⟨here,rfl⟩ := begins_some taken
    exact .begins here .read
  | pipeclose q writable =>
    obtain ⟨here,rfl⟩ := begins_some taken
    exact .begins here .close
  | kill q =>
    simp only at taken
    split at taken
    · cases taken
      exact .kill ‹_›
    · cases taken
  | turn q => exact moves_of_turn taken

end

/-- Who is inside `p->lock` and `ptable.lock`. -/
structure Locked (s : State P) : Prop where
  inside : Guards s.lock fun q => (s.pc q).Inside
  falls : Guards s.table fun q => (s.pc q).Falls

section
variable {s s' : State P} {q : P} {a : Action P}

theorem wakeRead_inside (pc : Pc) : (wakeRead pc).Inside ↔ pc.Inside := by cases pc <;> rfl
theorem wakeRead_falls (pc : Pc) : (wakeRead pc).Falls ↔ pc.Falls := by cases pc <;> rfl
theorem wakeWrite_inside (pc : Pc) : (wakeWrite pc).Inside ↔ pc.Inside := by cases pc <;> rfl
theorem wakeWrite_falls (pc : Pc) : (wakeWrite pc).Falls ↔ pc.Falls := by cases pc <;> rfl

theorem Enters.inside {pc pc' : Pc} (enters : Enters pc pc') : ¬ pc.Inside ∧ pc'.Inside ∧ ¬ pc.Falls ∧ ¬ pc'.Falls := by
  cases enters <;> exact ⟨id,trivial,id,id⟩

theorem Locked.stays (locked : Locked s) {pc : Pc} {wake : Pc → Pc} (same : s'.lock = s.lock) (table : s'.table = s.table)
    (here : (pc.Inside ↔ (s.pc q).Inside) ∧ (pc.Falls ↔ (s.pc q).Falls))
    (wakes : ∀ pc, ((wake pc).Inside ↔ pc.Inside) ∧ ((wake pc).Falls ↔ pc.Falls))
    (moved : s'.pc = update (fun r => wake (s.pc r)) q pc) : Locked s' := by
  refine ⟨?_,?_⟩
  · rw [same,moved]
    refine locked.inside.stays (q := q) ?_ (update_others (fun pc => (wakes pc).1) s.pc pc)
    rw [update_self]
    exact here.1
  · rw [table,moved]
    refine locked.falls.stays (q := q) ?_ (update_others (fun pc => (wakes pc).2) s.pc pc)
    rw [update_self]
    exact here.2

theorem Locked.leaves (locked : Locked s) (was : (s.pc q).Inside) (awake : ¬ (s.pc q).Falls) (lock : s'.lock = none)
    (table : s'.table = s.table) (moved : s'.pc = update s.pc q .outside) : Locked s' := by
  refine ⟨?_,?_⟩
  · rw [lock,moved]
    refine locked.inside.leaves was ?_ (update_others (fun _ => Iff.rfl) s.pc _)
    rw [update_self]
    exact id
  · rw [table,moved]
    refine locked.falls.stays (q := q) ?_ (update_others (fun _ => Iff.rfl) s.pc _)
    rw [update_self]
    exact ⟨fun h => h.elim,fun h => absurd h awake⟩

theorem Locked.fall (locked : Locked s) {pc : Pc} (was : (s.pc q).Inside) (free : s.table = none) (gone : ¬ pc.Inside) (falls : pc.Falls) :
    Locked { s.goto q pc with lock := none, table := some q } := by
  refine ⟨locked.inside.leaves was ?_ (update_others (fun _ => Iff.rfl) s.pc pc),
    locked.falls.enters free ?_ (update_others (fun _ => Iff.rfl) s.pc pc)⟩
  · simpa [State.goto] using gone
  · simpa [State.goto] using falls

theorem Locked.sleeps (locked : Locked s) {pc : Pc} (was : (s.pc q).Falls) (outside : ¬ (s.pc q).Inside) (gone : ¬ pc.Falls)
    (still : ¬ pc.Inside) : Locked { s.goto q pc with table := none } := by
  refine ⟨locked.inside.stays (q := q) ?_ (update_others (fun _ => Iff.rfl) s.pc pc),
    locked.falls.leaves was ?_ (update_others (fun _ => Iff.rfl) s.pc pc)⟩
  · simpa [State.goto] using iff_of_false still outside
  · simpa [State.goto] using gone

theorem Locked.step (locked : Locked s) (moves : Moves s a s') : Locked s' := by
  have none_ (pc : Pc) : ((id pc).Inside ↔ pc.Inside) ∧ ((id pc).Falls ↔ pc.Falls) := ⟨Iff.rfl,Iff.rfl⟩
  have reads (pc : Pc) := And.intro (wakeRead_inside pc) (wakeRead_falls pc)
  have writes (pc : Pc) := And.intro (wakeWrite_inside pc) (wakeWrite_falls pc)
  cases moves with
  | begins here wants =>
    refine locked.stays rfl rfl ?_ none_ rfl
    rw [here]
    exact ⟨iff_of_false wants.inside.1 id,iff_of_false wants.inside.2.2.1 id⟩
  | kill free =>
    refine locked.stays rfl rfl ?_ none_ rfl
    exact ⟨(wakeWrite_inside _).trans (wakeRead_inside _),(wakeWrite_falls _).trans (wakeRead_falls _)⟩
  | @acquires q pc enters free =>
    obtain ⟨_,inside,outside,awake⟩ := enters.inside
    refine ⟨locked.inside.enters free ?_ (update_others (fun _ => Iff.rfl) s.pc pc),
      locked.falls.stays (q := q) ?_ (update_others (fun _ => Iff.rfl) s.pc pc)⟩
    · simpa [State.goto] using inside
    · simpa [State.goto] using iff_of_false awake outside
  | gives_up here => exact locked.stays rfl rfl (by rw [here]; exact ⟨Iff.rfl,Iff.rfl⟩) none_ rfl
  | fills here => exact locked.stays rfl rfl (by rw [here]; exact ⟨Iff.rfl,Iff.rfl⟩) reads rfl
  | puts here => exact locked.stays rfl rfl (by rw [here]; exact ⟨Iff.rfl,Iff.rfl⟩) none_ rfl
  | done here => exact locked.stays rfl rfl (by rw [here]; exact ⟨Iff.rfl,Iff.rfl⟩) none_ rfl
  | write_falls here free => exact locked.fall (by rw [here]; trivial) free id trivial
  | write_sleeps here => exact locked.sleeps (by rw [here]; trivial) (by rw [here]; exact id) id id
  | write_wakes here => exact locked.stays rfl rfl (by rw [here]; exact ⟨Iff.rfl,Iff.rfl⟩) reads rfl
  | write_returns here => exact locked.leaves (by rw [here]; trivial) (by rw [here]; exact id) rfl rfl rfl
  | read_killed here => exact locked.stays rfl rfl (by rw [here]; exact ⟨Iff.rfl,Iff.rfl⟩) none_ rfl
  | read_falls here _ _ free => exact locked.fall (by rw [here]; trivial) free id trivial
  | read_sleeps here => exact locked.sleeps (by rw [here]; trivial) (by rw [here]; exact id) id id
  | copies here => exact locked.stays rfl rfl (by rw [here]; exact ⟨Iff.rfl,Iff.rfl⟩) none_ rfl
  | gets here => exact locked.stays rfl rfl (by rw [here]; exact ⟨Iff.rfl,Iff.rfl⟩) none_ rfl
  | read_wakes here => exact locked.stays rfl rfl (by rw [here]; exact ⟨Iff.rfl,Iff.rfl⟩) writes rfl
  | read_returns here => exact locked.leaves (by rw [here]; trivial) (by rw [here]; exact id) rfl rfl rfl
  | closes here => exact locked.stays rfl rfl (by rw [here]; exact ⟨Iff.rfl,Iff.rfl⟩) none_ rfl
  | @close_wakes _ writable here =>
    refine locked.stays rfl rfl (by rw [here]; exact ⟨Iff.rfl,Iff.rfl⟩) (fun pc => ?_) rfl
    cases writable
    · exact writes pc
    · exact reads pc
  | close_returns here => exact locked.leaves (by rw [here]; trivial) (by rw [here]; exact id) rfl rfl rfl

end

end Osce.Pipes
