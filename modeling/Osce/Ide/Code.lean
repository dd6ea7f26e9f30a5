import Osce.Lib.Chain
import Osce.Lib.Mutex
import Osce.Lib.Steps

/-!
The disk driver: `iderw`, `idestart` and `ideintr` of `ide.c` with the parts of `sleep`,
`wakeup` and `kill` that they meet, and a device that raises one interrupt for each
command. Any number of processes are in `iderw`, each for a buffer that it holds;
a step is one turn of a loop, one test or the taking of the lock. That the device
is ready (`idewait`) is taken for granted.
-/
namespace Osce.Ide
open Osce.Lib
set_option linter.unusedSectionVars false

structure Buf (D : Type) where
  busy : Bool
  valid : Bool
  dirty : Bool
  dev : UInt32
  sector : UInt32
  qnext : Nat
  data : D

variable {D P : Type}

/-- `(b->flags & (B_VALID|B_DIRTY)) == B_VALID` -/
def Buf.done (b : Buf D) : Bool := b.valid && !b.dirty

/-- What `idestart` puts into the ports 0x1f3 to 0x1f6, and the data of a write. -/
structure Command (D : Type) where
  low : UInt8
  mid : UInt8
  high : UInt8
  disk : UInt8
  write : Option D

def Buf.command (b : Buf D) : Command D where
  low := b.sector.toUInt8
  mid := (b.sector >>> 8).toUInt8
  high := (b.sector >>> 16).toUInt8
  disk := (0xe0 : UInt8) ||| ((b.dev &&& 1) <<< 4).toUInt8 ||| ((b.sector >>> 24) &&& 0x0f).toUInt8
  write := if b.dirty then some b.data else none

/-- How far the device is with a command. -/
inductive Phase (P : Type) where
  | working
  | raised
  | delivered (q : P)

inductive Pc where
  | outside
  /-- In `iderw` past its checks, before `acquire`. -/
  | wants (b : Nat)
  /-- Before `b->qnext = 0`. -/
  | append (b : Nat)
  /-- At the test of the loop, with `pp`: 0 for `&idequeue`, or the buffer of the `qnext`. -/
  | walk (b pp : Nat)
  /-- Before the test for `idequeue == b`. -/
  | start (b : Nat)
  /-- At the test of the second loop. -/
  | wait (b : Nat)
  | asleep (b : Nat)
  /-- In `sleep` again, before `acquire`. -/
  | wakes (b : Nat)
  /-- Before the last `release` of `iderw`. -/
  | done (b : Nat)
  /-- In `ideintr` before `acquire`. -/
  | wantsIntr
  | intr
  /-- Past `wakeup`, before the test for `idequeue != 0`. -/
  | intrStart
  /-- Before the last `release` of `ideintr`. -/
  | intrDone

def Pc.Inside : Pc → Prop
  | .append _ => True
  | .walk _ _ => True
  | .start _ => True
  | .wait _ => True
  | .done _ => True
  | .intr => True
  | .intrStart => True
  | .intrDone => True
  | _ => False

/-- The buffers, the queue, who has `idelock`, the calls and the device. The rest is history:
    who holds each buffer, and the requests that were appended, started and finished. -/
structure State (P D : Type) where
  bufs : Nat → Buf D
  idequeue : Nat
  lock : Option P
  pc : P → Pc
  device : Option (Command D × Phase P)
  holder : Nat → Option P
  appended : List (Nat × Command D)
  started : List (Nat × Command D)
  finished : List (Nat × Command D)

inductive Action (P D : Type) where
  /-- The process gets a buffer, marked `B_BUSY` for it. -/
  | bget (q : P) (b : Nat)
  /-- It changes the flags, the sector or the data of a buffer that it holds. -/
  | change (q : P) (b : Nat) (v : Buf D)
  | brelse (q : P) (b : Nat)
  | iderw (q : P) (b : Nat)
  | raise
  | ideintr (q : P)
  | kill (q : P)
  /-- The next turn of a call, with what `insl` gets if `idewait(1)` finds no error. -/
  | turn (q : P) (input : Option D)

def wake (b : Nat) : Pc → Pc
  | .asleep b' => if b' = b then .wakes b' else .asleep b'
  | pc => pc

variable [DecidableEq P]

namespace State

def goto (s : State P D) (q : P) (pc : Pc) : State P D := { s with pc := Function.update s.pc q pc }

def setBuf (s : State P D) (b : Nat) (v : Buf D) : State P D := { s with bufs := Function.update s.bufs b v }

def acquires (s : State P D) (q : P) (pc : Pc) : Option (Except String (State P D)) :=
  match s.lock with
  | none => some (.ok { s.goto q pc with lock := some q })
  | some _ => none

def leaves (s : State P D) (q : P) : State P D := { s.goto q .outside with lock := none }

/-- Start the request for b. -/
def idestart (s : State P D) (b : Nat) : Except String (State P D) :=
  if b = 0 then .error "idestart"
  else .ok { s with
    device := some ((s.bufs b).command,.working)
    started := s.started ++ [(b,(s.bufs b).command)] }

def pointee (s : State P D) (pp : Nat) : Nat := if pp = 0 then s.idequeue else (s.bufs pp).qnext

def setPointee (s : State P D) (pp b : Nat) : State P D :=
  if pp = 0 then { s with idequeue := b } else s.setBuf pp { s.bufs pp with qnext := b }

/-- The loop that finds the end of the queue, and the store there. -/
def walks (s : State P D) (q : P) (b pp : Nat) : State P D :=
  if s.pointee pp ≠ 0 then s.goto q (.walk b (s.pointee pp))
  else { (s.setPointee pp b).goto q (.start b) with appended := s.appended ++ [(b,(s.bufs b).command)] }

/-- The first queued buffer is taken off the queue, and its request is finished. -/
def finishes (s : State P D) (q : P) (b : Nat) (input : Option D) : State P D :=
  { s.setBuf b { s.bufs b with
      data := if (s.bufs b).dirty then (s.bufs b).data else input.getD (s.bufs b).data
      valid := true
      dirty := false } with
    idequeue := (s.bufs b).qnext
    pc := Function.update (fun r => wake b (s.pc r)) q .intrStart
    device := none
    finished := s.finished ++ [(b,(s.bufs b).command)] }

/-- The next turn of a call, where it stands. `sleep` takes `ptable.lock` before it gives
    up `idelock`, so that no `wakeup` comes in between. -/
def turn (s : State P D) (q : P) (input : Option D) : Option (Except String (State P D)) :=
  match s.pc q with
  | .outside => none
  | .wants b => s.acquires q (.append b)
  | .append b => some (.ok ((s.setBuf b { s.bufs b with qnext := 0 }).goto q (.walk b 0)))
  | .walk b pp => some (.ok (s.walks q b pp))
  | .start b => if s.idequeue = b then some ((s.goto q (.wait b)).idestart b) else some (.ok (s.goto q (.wait b)))
  | .wait b =>
    if (s.bufs b).done then some (.ok (s.goto q (.done b)))
    else some (.ok { s.goto q (.asleep b) with lock := none })
  | .asleep _ => none
  | .wakes b => s.acquires q (.wait b)
  | .done _ => some (.ok (s.leaves q))
  | .wantsIntr => s.acquires q .intr
  | .intr => if s.idequeue = 0 then some (.ok (s.goto q .intrDone)) else some (.ok (s.finishes q s.idequeue input))
  | .intrStart =>
    if s.idequeue ≠ 0 then some ((s.goto q .intrDone).idestart s.idequeue) else some (.ok (s.goto q .intrDone))
  | .intrDone => some (.ok (s.leaves q))

def calls (havedisk1 : Bool) (s : State P D) (q : P) (b : Nat) : Except String (State P D) :=
  if (s.bufs b).busy = false then .error "iderw: buf not busy"
  else if (s.bufs b).done then .error "iderw: nothing to do"
  else if (s.bufs b).dev ≠ 0 ∧ havedisk1 = false then .error "iderw: ide disk 1 not present"
  else .ok (s.goto q (.wants b))

def idle (s : State P D) (q : P) : Bool :=
  match s.pc q with
  | .outside => true
  | _ => false

end State

/-- One step, or the message of a panic. Only the holder of a buffer changes it outside the driver. -/
def step (havedisk1 : Bool) (s : State P D) : Action P D → Option (Except String (State P D))
  | .bget q b =>
    if s.idle q ∧ s.holder b = none then
      some (.ok { s.setBuf b { s.bufs b with busy := true } with holder := Function.update s.holder b (some q) })
    else none
  | .change q b v =>
    if s.idle q ∧ s.holder b = some q then
      some (.ok (s.setBuf b { v with busy := true, qnext := (s.bufs b).qnext }))
    else none
  | .brelse q b =>
    if s.idle q ∧ s.holder b = some q then
      some (.ok { s.setBuf b { s.bufs b with busy := false } with holder := Function.update s.holder b none })
    else none
  | .iderw q b => if s.idle q then some (s.calls havedisk1 q b) else none
  | .raise =>
    match s.device with
    | some (c,.working) => some (.ok { s with device := some (c,.raised) })
    | _ => none
  | .ideintr q =>
    match s.idle q, s.device with
    | true, some (c,.raised) => some (.ok { s.goto q .wantsIntr with device := some (c,.delivered q) })
    | _, _ => none
  | .kill q =>
    match s.pc q with
    | .asleep b => some (.ok (s.goto q (.wakes b)))
    | _ => none
  | .turn q input => s.turn q input

def allowed (s : State P D) : Action P D → Prop
  | .iderw q b => b ≠ 0 ∧ s.holder b = some q
  | _ => True

instance (s : State P D) : (a : Action P D) → Decidable (allowed s a)
  | .iderw q b => inferInstanceAs (Decidable (b ≠ 0 ∧ s.holder b = some q))
  | .bget _ _ => .isTrue trivial
  | .change _ _ _ => .isTrue trivial
  | .brelse _ _ => .isTrue trivial
  | .raise => .isTrue trivial
  | .ideintr _ => .isTrue trivial
  | .kill _ => .isTrue trivial
  | .turn _ _ => .isTrue trivial

def State.init (P : Type) (bufs : Nat → Buf D) : State P D :=
  ⟨bufs,0,none,fun _ => .outside,none,fun _ => none,[],[],[]⟩

def Reachable (havedisk1 : Bool) (bufs : Nat → Buf D) : State P D → Prop :=
  Steps.Reachable (step havedisk1) allowed (State.init P bufs)

/-- The places from which a call takes `idelock`, each with the one it goes on at. -/
inductive Enters : Pc → Pc → Prop where
  | append {b : Nat} : Enters (.wants b) (.append b)
  | wait {b : Nat} : Enters (.wakes b) (.wait b)
  | intr : Enters .wantsIntr .intr

inductive Last : Pc → Prop where
  | done {b : Nat} : Last (.done b)
  | intr : Last .intrDone

inductive Moves (s : State P D) : State P D → Prop where
  /-- A process gets, changes or gives up a buffer. -/
  | buffer {q : P} {b : Nat} {v : Buf D} {holder : Option P} (here : s.pc q = .outside)
      (mine : s.holder b = none ∨ s.holder b = some q) :
      Moves s { s.setBuf b v with holder := Function.update s.holder b holder }
  | begins {q : P} {b : Nat} (here : s.pc q = .outside) (real : b ≠ 0) (mine : s.holder b = some q)
      (todo : (s.bufs b).done = false) : Moves s (s.goto q (.wants b))
  | raises {c : Command D} (working : s.device = some (c,.working)) : Moves s { s with device := some (c,.raised) }
  | delivers {q : P} {c : Command D} (here : s.pc q = .outside) (raised : s.device = some (c,.raised)) :
      Moves s { s.goto q .wantsIntr with device := some (c,.delivered q) }
  | kill {q : P} {b : Nat} (here : s.pc q = .asleep b) : Moves s (s.goto q (.wakes b))
  | acquires {q : P} {pc : Pc} (enters : Enters (s.pc q) pc) (free : s.lock = none) :
      Moves s { s.goto q pc with lock := some q }
  | leaves {q : P} (last : Last (s.pc q)) : Moves s (s.leaves q)
  | clears {q : P} {b : Nat} (here : s.pc q = .append b) :
      Moves s ((s.setBuf b { s.bufs b with qnext := 0 }).goto q (.walk b 0))
  | walks {q : P} {b pp : Nat} (here : s.pc q = .walk b pp) (more : s.pointee pp ≠ 0) :
      Moves s (s.goto q (.walk b (s.pointee pp)))
  | appends {q : P} {b pp : Nat} (here : s.pc q = .walk b pp) (last : s.pointee pp = 0) :
      Moves s { (s.setPointee pp b).goto q (.start b) with appended := s.appended ++ [(b,(s.bufs b).command)] }
  | starts {q : P} {b : Nat} {pc : Pc} (here : s.pc q = .start b ∧ pc = .wait b ∨ s.pc q = .intrStart ∧ pc = .intrDone)
      (first : s.idequeue = b) (real : b ≠ 0) :
      Moves s { s.goto q pc with
        device := some ((s.bufs b).command,.working)
        started := s.started ++ [(b,(s.bufs b).command)] }
  | queued {q : P} {b : Nat} (here : s.pc q = .start b) (other : s.idequeue ≠ b) : Moves s (s.goto q (.wait b))
  | sleeps {q : P} {b : Nat} (here : s.pc q = .wait b) : Moves s { s.goto q (.asleep b) with lock := none }
  | ready {q : P} {b : Nat} (here : s.pc q = .wait b) (done : (s.bufs b).done = true) : Moves s (s.goto q (.done b))
  | spurious {q : P} (here : s.pc q = .intr) (empty : s.idequeue = 0) : Moves s (s.goto q .intrDone)
  | finishes {q : P} {input : Option D} (here : s.pc q = .intr) (real : s.idequeue ≠ 0) : Moves s (s.finishes q s.idequeue input)
  | rests {q : P} (here : s.pc q = .intrStart) (empty : s.idequeue = 0) : Moves s (s.goto q .intrDone)

section
variable {s s' : State P D} {q : P} {pc : Pc} {havedisk1 : Bool}

theorem idle_iff : s.idle q = true ↔ s.pc q = .outside := by
  unfold State.idle
  cases s.pc q <;> simp

theorem acquires_some (taken : s.acquires q pc = some (.ok s')) : s.lock = none ∧ s' = { s.goto q pc with lock := some q } := by
  unfold State.acquires at taken
  split at taken
  · cases taken
    exact ⟨‹_›,rfl⟩
  · cases taken

theorem idestart_ok {b : Nat} (taken : s.idestart b = .ok s') : b ≠ 0 ∧ s' = { s with
    device := some ((s.bufs b).command,.working)
    started := s.started ++ [(b,(s.bufs b).command)] } := by
  unfold State.idestart at taken
  split at taken
  · cases taken
  · cases taken
    exact ⟨‹_›,rfl⟩

theorem moves_of_turn {input : Option D} (taken : s.turn q input = some (.ok s')) : Moves s s' := by
  unfold State.turn at taken
  split at taken
  case h_1 => cases taken
  case h_2 b here =>
    obtain ⟨free,rfl⟩ := acquires_some taken
    exact .acquires (here ▸ .append) free
  case h_3 b here =>
    cases taken
    exact .clears here
  case h_4 b pp here =>
    cases taken
    unfold State.walks
    split
    · exact .walks here ‹_›
    · exact .appends here (not_not.mp ‹_›)
  case h_5 b here =>
    split at taken
    · obtain ⟨real,rfl⟩ := idestart_ok (Option.some.inj taken)
      exact .starts (.inl ⟨here,rfl⟩) ‹_› real
    · cases taken
      exact .queued here ‹_›
  case h_6 b here =>
    split at taken
    · cases taken
      exact .ready here ‹_›
    · cases taken
      exact .sleeps here
  case h_7 => cases taken
  case h_8 b here =>
    obtain ⟨free,rfl⟩ := acquires_some taken
    exact .acquires (here ▸ .wait) free
  case h_9 b here =>
    cases taken
    exact .leaves (here ▸ .done)
  case h_10 here =>
    obtain ⟨free,rfl⟩ := acquires_some taken
    exact .acquires (here ▸ .intr) free
  case h_11 here =>
    split at taken
    · cases taken
      exact .spurious here ‹_›
    · cases taken
      exact .finishes here ‹_›
  case h_12 here =>
    split at taken
    · obtain ⟨real,rfl⟩ := idestart_ok (Option.some.inj taken)
      exact .starts (.inr ⟨here,rfl⟩) rfl real
    · cases taken
      exact .rests here (not_not.mp ‹_›)
  case h_13 here =>
    cases taken
    exact .leaves (here ▸ .intr)

theorem moves_of_step {a : Action P D} (meets : allowed s a) (taken : step havedisk1 s a = some (.ok s')) : Moves s s' := by
  cases a with
  | bget q b =>
    simp only [step] at taken
    split at taken
    · rename_i free
      cases taken
      exact .buffer (idle_iff.mp free.1) (.inl free.2)
    · cases taken
  | change q b v =>
    simp only [step] at taken
    split at taken
    · rename_i mine
      cases taken
      have moves : Moves s { s.setBuf b _ with holder := Function.update s.holder b (s.holder b) } :=
        .buffer (v := { v with busy := true, qnext := (s.bufs b).qnext }) (idle_iff.mp mine.1) (.inr mine.2)
      rwa [Function.update_eq_self] at moves
    · cases taken
  | brelse q b =>
    simp only [step] at taken
    split at taken
    · rename_i mine
      cases taken
      exact .buffer (idle_iff.mp mine.1) (.inr mine.2)
    · cases taken
  | iderw q b =>
    simp only [step] at taken
    split at taken
    · rename_i isIdle
      unfold State.calls at taken
      by_cases busy : (s.bufs b).busy = false
      · rw [if_pos busy] at taken
        cases taken
      by_cases done : (s.bufs b).done = true
      · rw [if_neg busy,if_pos done] at taken
        cases taken
      rw [if_neg busy,if_neg done] at taken
      split at taken
      · cases taken
      · cases taken
        exact .begins (idle_iff.mp isIdle) meets.1 meets.2 (Bool.not_eq_true _ ▸ done)
    · cases taken
  | raise =>
    simp only [step] at taken
    split at taken
    · cases taken
      exact .raises ‹_›
    · cases taken
  | ideintr q =>
    simp only [step] at taken
    split at taken
    · rename_i isIdle raised
      cases taken
      exact .delivers (idle_iff.mp isIdle) raised
    · cases taken
  | kill q =>
    simp only [step] at taken
    split at taken
    · cases taken
      exact .kill ‹_›
    · cases taken
  | turn q input => exact moves_of_turn taken

end

end Osce.Ide
