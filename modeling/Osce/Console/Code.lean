import Osce.Lib.Mutex
import Osce.Lib.Ring
import Osce.Lib.Steps

/-!
The input of the console: `consoleintr` and `consoleread` of `console.c` with the parts of
`sleep`, `wakeup` and `kill` that they meet. Any number of processes are in `consoleread`
and any number of processors in `consoleintr`; a step is one turn of a loop or the taking
of the lock.
-/
namespace Osce.Console
open Osce.Lib

def INPUT_BUF : Nat := 128

/-- `C(x)`: Control-x -/
def C (x : Char) : UInt8 := x.toUInt8 - '@'.toUInt8

def NL : UInt8 := 10

def CR : UInt8 := 13

def DEL : UInt8 := 0x7f

structure Input where
  buf : Nat → UInt8
  r : BitVec 32
  w : BitVec 32
  e : BitVec 32

namespace Input

def byteAt (i : Input) (index : BitVec 32) : UInt8 := i.buf (index.toNat % INPUT_BUF)

/-- `input.buf[input.e++ % INPUT_BUF] = c` -/
def put (i : Input) (c : UInt8) : Input :=
  { i with buf := Function.update i.buf (i.e.toNat % INPUT_BUF) c, e := i.e + 1 }

/-- The loop for `C('U')`. -/
def killLine (i : Input) : Input :=
  if i.w ≠ i.e ∧ i.byteAt (i.e - 1) ≠ NL then killLine { i with e := i.e - 1 } else i
termination_by Ring.count i.w i.e
decreasing_by
  have := Ring.count_unpush ‹i.w ≠ i.e ∧ _›.1
  omega

def backspace (i : Input) : Input := if i.e ≠ i.w then { i with e := i.e - 1 } else i

/-- The character goes into the buffer, and `input.w` follows at the end of a line and when
    the buffer is full. -/
def store (c : UInt8) (i : Input) : Input × Bool :=
  let i := i.put c
  if c = NL ∨ c = C 'D' ∨ i.e = i.r + BitVec.ofNat 32 INPUT_BUF then ({ i with w := i.e },true) else (i,false)

/-- What `consoleintr` does with a character, and whether it calls `wakeup`. The
    characters are bytes: `kbdgetc` and `uartgetc` return nothing else. -/
def key (c : UInt8) (i : Input) : Input × Bool :=
  if c = C 'P' then (i,false)
  else if c = C 'U' then (i.killLine,false)
  else if c = C 'H' ∨ c = DEL then (i.backspace,false)
  else if c ≠ 0 ∧ (i.e - i.r).toNat < INPUT_BUF then i.store (if c = CR then NL else c)
  else (i,false)

/-- The byte that a turn of `consoleread` gets, if there is one. A `C('D')` is saved for the
    next time when some bytes have been read before (`n < target`). -/
def take (held : Bool) (i : Input) : Option (UInt8 × Input) :=
  if i.r = i.w then none
  else
    let c := i.byteAt i.r
    let i := { i with r := i.r + 1 }
    if c = C 'D' then some (c,if held then { i with r := i.r - 1 } else i) else some (c,i)

end Input

/-- What the calls do with a buffer. -/
structure Buffer (B : Type) where
  key : UInt8 → B → B × Bool
  take : Bool → B → Option (UInt8 × B)

def code : Buffer Input := ⟨Input.key,Input.take⟩

inductive Pc where
  | outside
  /-- In `consoleintr` before `acquire`, with the characters that `getc` will return. -/
  | wantsIntr (keys : List UInt8)
  | intr (keys : List UInt8)
  /-- In `consoleread` before `acquire`, also the one in `sleep`, with the bytes stored so far. -/
  | wantsRead (n : Int) (got : List UInt8)
  /-- At the test of the loop. -/
  | read (n : Int) (got : List UInt8)
  /-- `SLEEPING` on `&input.r`. -/
  | asleep (n : Int) (got : List UInt8)
  /-- Before the last `release`, with the bytes stored or `none` for -1. -/
  | done (n : Int) (got : Option (List UInt8))

def Pc.Inside : Pc → Prop
  | .intr _ => True
  | .read _ _ => True
  | .done _ _ => True
  | _ => False

/-- The buffer, who has `input.lock`, and the calls with the `killed` flags. The rest is
    history: the bytes that left the queue, all of them and those of the last
    call of each process. -/
structure State (B P : Type) where
  input : B
  lock : Option P
  pc : P → Pc
  killed : P → Bool
  taken : List UInt8
  took : P → List UInt8

inductive Action (P : Type) where
  | consoleintr (q : P) (keys : List UInt8)
  | consoleread (q : P) (n : Int)
  | kill (q : P)
  | turn (q : P)

/-- `wakeup(&input.r)` -/
def wake : Pc → Pc
  | .asleep n got => .wantsRead n got
  | pc => pc

variable {B B' P : Type} [DecidableEq P]

namespace State

def goto (s : State B P) (q : P) (pc : Pc) : State B P := { s with pc := Function.update s.pc q pc }

def acquires (s : State B P) (q : P) (pc : Pc) : Option (State B P) :=
  match s.lock with
  | none => some { s.goto q pc with lock := some q }
  | some _ => none

def leaves (s : State B P) (q : P) : State B P := { s.goto q .outside with lock := none }

def types (s : State B P) (q : P) (keys : List UInt8) (result : B × Bool) : State B P :=
  { s with
    input := result.1
    pc := Function.update (fun r => if result.2 then wake (s.pc r) else s.pc r) q (.intr keys) }

def takes (s : State B P) (q : P) (input : B) (bytes : List UInt8) (pc : Pc) : State B P :=
  { s.goto q pc with
    input := input
    taken := s.taken ++ bytes
    took := Function.update s.took q (s.took q ++ bytes) }

/-- One turn of the loop of `consoleread`. `sleep` takes `ptable.lock` before it gives up
    `input.lock`, so that no `wakeup` comes in between. -/
def reads (buffer : Buffer B) (s : State B P) (q : P) (n : Int) (got : List UInt8) : State B P :=
  if got.length < n then
    let held := decide (n - got.length < n)
    match buffer.take held s.input with
    | none => if s.killed q then s.goto q (.done n none) else { s.goto q (.asleep n got) with lock := none }
    | some (c,input) =>
      if c = C 'D' then s.takes q input (if held then [] else [c]) (.done n (some got))
      else s.takes q input [c] (if c = NL then .done n (some (got ++ [c])) else .read n (got ++ [c]))
  else s.goto q (.done n (some got))

def turn (buffer : Buffer B) (s : State B P) (q : P) : Option (State B P) :=
  match s.pc q with
  | .outside => none
  | .wantsIntr keys => s.acquires q (.intr keys)
  | .intr [] => some (s.leaves q)
  | .intr (c :: keys) => some (s.types q keys (buffer.key c s.input))
  | .wantsRead n got => s.acquires q (.read n got)
  | .read n got => some (s.reads buffer q n got)
  | .asleep _ _ => none
  | .done _ _ => some (s.leaves q)

def begins (s : State B P) (q : P) (pc : Pc) : Option (State B P) :=
  match s.pc q with
  | .outside => some { s.goto q pc with took := Function.update s.took q [] }
  | _ => none

end State

def next (buffer : Buffer B) (s : State B P) : Action P → Option (State B P)
  | .consoleintr q keys => s.begins q (.wantsIntr keys)
  | .consoleread q n => s.begins q (.wantsRead n [])
  | .kill q => some { s with
      pc := Function.update s.pc q (wake (s.pc q))
      killed := Function.update s.killed q true }
  | .turn q => s.turn buffer q

def step (buffer : Buffer B) (s : State B P) (a : Action P) : Option (Except String (State B P)) :=
  (next buffer s a).map Except.ok

def State.init (input : B) (killed : P → Bool) : State B P := ⟨input,none,fun _ => .outside,killed,[],fun _ => []⟩

def Reachable (buffer : Buffer B) (input : B) (killed : P → Bool) : State B P → Prop :=
  Steps.Reachable (step buffer) (fun _ _ => True) (State.init input killed)

def Later (buffer : Buffer B) (s : State B P) : State B P → Prop := Steps.Reachable (step buffer) (fun _ _ => True) s

/-- The places from which a call takes `input.lock`, each with the one it goes on at. -/
inductive Enters : Pc → Pc → Prop where
  | intr {keys : List UInt8} : Enters (.wantsIntr keys) (.intr keys)
  | read {n : Int} {got : List UInt8} : Enters (.wantsRead n got) (.read n got)

/-- The places before the last `release`. -/
inductive Last : Pc → Prop where
  | intr : Last (.intr [])
  | read {n : Int} {got : Option (List UInt8)} : Last (.done n got)

inductive First : Pc → Prop where
  | intr {keys : List UInt8} : First (.wantsIntr keys)
  | read {n : Int} : First (.wantsRead n [])

inductive Moves (buffer : Buffer B) (s : State B P) : State B P → Prop where
  | begins {q : P} {pc : Pc} (here : s.pc q = .outside) (first : First pc) :
      Moves buffer s { s.goto q pc with took := Function.update s.took q [] }
  | kill {q : P} : Moves buffer s { s with
      pc := Function.update s.pc q (wake (s.pc q))
      killed := Function.update s.killed q true }
  | acquires {q : P} {pc : Pc} (enters : Enters (s.pc q) pc) (free : s.lock = none) :
      Moves buffer s { s.goto q pc with lock := some q }
  | leaves {q : P} (last : Last (s.pc q)) : Moves buffer s (s.leaves q)
  | types {q : P} {c : UInt8} {keys : List UInt8} (here : s.pc q = .intr (c :: keys)) :
      Moves buffer s (s.types q keys (buffer.key c s.input))
  | gives_up {q : P} {n : Int} {got : List UInt8} (here : s.pc q = .read n got) : Moves buffer s (s.goto q (.done n none))
  | sleeps {q : P} {n : Int} {got : List UInt8} (here : s.pc q = .read n got) :
      Moves buffer s { s.goto q (.asleep n got) with lock := none }
  | enough {q : P} {n : Int} {got : List UInt8} (here : s.pc q = .read n got) (all : ¬ got.length < n) :
      Moves buffer s (s.goto q (.done n (some got)))
  | eof {q : P} {n : Int} {got : List UInt8} {held : Bool} {input : B} (here : s.pc q = .read n got) (more : got.length < n)
      (isHeld : held = decide (n - got.length < n)) (taken : buffer.take held s.input = some (C 'D',input)) :
      Moves buffer s (s.takes q input (if held then [] else [C 'D']) (.done n (some got)))
  | takes {q : P} {n : Int} {got : List UInt8} {held : Bool} {c : UInt8} {input : B} (here : s.pc q = .read n got)
      (more : got.length < n) (taken : buffer.take held s.input = some (c,input)) (byte : c ≠ C 'D') :
      Moves buffer s (s.takes q input [c] (if c = NL then .done n (some (got ++ [c])) else .read n (got ++ [c])))

section
variable {buffer : Buffer B} {s s' : State B P} {q : P} {pc : Pc}

theorem acquires_some (taken : s.acquires q pc = some s') : s.lock = none ∧ s' = { s.goto q pc with lock := some q } := by
  unfold State.acquires at taken
  split at taken
  · exact ⟨‹_›,(Option.some.inj taken).symm⟩
  · cases taken

theorem begins_some (taken : s.begins q pc = some s') :
    s.pc q = .outside ∧ s' = { s.goto q pc with took := Function.update s.took q [] } := by
  unfold State.begins at taken
  split at taken
  · exact ⟨‹_›,(Option.some.inj taken).symm⟩
  · cases taken

theorem moves_of_reads {n : Int} {got : List UInt8} (here : s.pc q = .read n got) : Moves buffer s (s.reads buffer q n got) := by
  unfold State.reads
  split
  · rename_i more
    dsimp only
    split
    · split
      · exact .gives_up here
      · exact .sleeps here
    · rename_i c input taken
      split
      · rename_i isEof
        rw [isEof] at taken ⊢
        exact .eof here more rfl taken
      · exact .takes here more taken ‹_›
  · exact .enough here ‹_›

theorem moves_of_step {a : Action P} (taken : step buffer s a = some (.ok s')) : Moves buffer s s' := by
  obtain ⟨_,taken,same⟩ := Option.map_eq_some_iff.mp taken
  cases same
  cases a with
  | consoleintr q keys =>
    obtain ⟨here,rfl⟩ := begins_some taken
    exact .begins here .intr
  | consoleread q n =>
    obtain ⟨here,rfl⟩ := begins_some taken
    exact .begins here .read
  | kill q =>
    cases taken
    exact .kill
  | turn q =>
    simp only [next,State.turn] at taken
    split at taken
    case h_1 => cases taken
    case h_2 keys here =>
      obtain ⟨free,rfl⟩ := acquires_some taken
      exact .acquires (here ▸ .intr) free
    case h_3 here =>
      cases taken
      exact .leaves (here ▸ .intr)
    case h_4 c keys here =>
      cases taken
      exact .types here
    case h_5 n got here =>
      obtain ⟨free,rfl⟩ := acquires_some taken
      exact .acquires (here ▸ .read) free
    case h_6 n got here =>
      cases taken
      exact moves_of_reads here
    case h_7 => cases taken
    case h_8 n got here =>
      cases taken
      exact .leaves (here ▸ .read)

end

def State.map (f : B → B') (s : State B P) : State B' P := ⟨f s.input,s.lock,s.pc,s.killed,s.taken,s.took⟩

/-- The buffer `buffer'` does with the image of a good buffer what `buffer` does with it. -/
structure Simulates (buffer : Buffer B) (buffer' : Buffer B') (f : B → B') (Good : B → Prop) : Prop where
  key : ∀ c b, Good b → Good (buffer.key c b).1 ∧ buffer'.key c (f b) = (f (buffer.key c b).1,(buffer.key c b).2)
  take : ∀ held b, Good b → (∀ c b', buffer.take held b = some (c,b') → Good b') ∧
    buffer'.take held (f b) = (buffer.take held b).map fun got => (got.1,f got.2)

section
variable {buffer : Buffer B} {buffer' : Buffer B'} {f : B → B'} {Good : B → Prop} {s s' : State B P}

theorem Simulates.good (sim : Simulates buffer buffer' f Good) (good : Good s.input) (moves : Moves buffer s s') : Good s'.input := by
  cases moves with
  | types _ => exact (sim.key _ _ good).1
  | eof _ _ _ taken => exact (sim.take _ _ good).1 _ _ taken
  | takes _ _ taken _ => exact (sim.take _ _ good).1 _ _ taken
  | _ => exact good

theorem Simulates.reads (sim : Simulates buffer buffer' f Good) (good : Good s.input) (q : P) (n : Int) (got : List UInt8) :
    (s.map f).reads buffer' q n got = (s.reads buffer q n got).map f := by
  have same := (sim.take (decide (n - got.length < n)) s.input good).2
  have mapped : (s.map f).input = f s.input := rfl
  have dies : (s.map f).killed = s.killed := rfl
  unfold State.reads
  dsimp only
  rw [mapped,same,dies]
  by_cases more : got.length < n
  · rw [if_pos more,if_pos more]
    cases buffer.take (decide (n - got.length < n)) s.input with
    | none => cases s.killed q <;> rfl
    | some taken =>
      obtain ⟨c,input⟩ := taken
      by_cases isEof : c = C 'D'
      · simp only [Option.map_some,if_pos isEof]
        rfl
      · simp only [Option.map_some,if_neg isEof]
        rfl
  · rw [if_neg more,if_neg more]
    rfl

theorem Simulates.next (sim : Simulates buffer buffer' f Good) (good : Good s.input) (a : Action P) :
    Console.next buffer' (s.map f) a = (Console.next buffer s a).map (State.map f) := by
  cases a with
  | consoleintr q keys =>
    simp only [Console.next,State.begins,State.map]
    split <;> rfl
  | consoleread q n =>
    simp only [Console.next,State.begins,State.map]
    split <;> rfl
  | kill q => rfl
  | turn q =>
    have reads := sim.reads good q
    simp only [Console.next,State.turn]
    have same : (s.map f).pc = s.pc := rfl
    rw [same]
    split
    · rfl
    · simp only [State.acquires,State.map]
      split <;> rfl
    · rfl
    · rename_i c keys here
      have typed : buffer'.key c (s.map f).input = _ := (sim.key c s.input good).2
      rw [typed]
      rfl
    · simp only [State.acquires,State.map]
      split <;> rfl
    · rw [reads]
      rfl
    · rfl
    · rfl

theorem Simulates.reachable (sim : Simulates buffer buffer' f Good) {input : B} {killed : P → Bool} (good : Good input)
    (reachable : Reachable buffer input killed s) : Good s.input ∧ Reachable buffer' (f input) killed (s.map f) := by
  induction reachable with
  | start => exact ⟨good,.start⟩
  | @step _ _ a before _ taken ih =>
    refine ⟨sim.good ih.1 (moves_of_step taken),.step (a := a) ih.2 trivial ?_⟩
    obtain ⟨t,goes,same⟩ := Option.map_eq_some_iff.mp taken
    cases same
    rw [step,sim.next ih.1,goes]
    rfl

end

end Osce.Console
