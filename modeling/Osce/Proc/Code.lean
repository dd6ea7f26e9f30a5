import Osce.Lib.Steps

/-!
Processes: `proc.c` on any number of CPUs. Each step is what the scheduler of a CPU or the
kernel thread of a process does between two points where another CPU can see it: the
taking and the giving up of a lock, a section under `ptable.lock`, a switch of stacks.
`ptable.lock` is held by a CPU, across `swtch`. What the rest of the kernel does is left
open: a process in it takes and releases other spinlocks, and calls the functions of
`proc.c` in any order.
-/
namespace Osce.Procs
open Osce.Lib

def NPROC : Nat := 64
def NOFILE : Nat := 16

abbrev Slot := Fin NPROC

inductive ProcState where
  | UNUSED
  | EMBRYO
  | SLEEPING
  | RUNNABLE
  | RUNNING
  | ZOMBIE
  deriving DecidableEq, Repr

/-- What a process can sleep on: an entry of the table in `wait`, or another address. -/
inductive Chan (A : Type) where
  | proc (p : Slot)
  | addr (a : A)
  deriving DecidableEq

/-- The fields that only `pstat` reads: the size, the name and the open files. -/
structure Image where
  sz : Nat
  name : List UInt8
  ofile : Fin NOFILE → Bool

structure Proc (A : Type) where
  state : ProcState
  pid : Int
  parent : Option Slot
  chan : Option (Chan A)
  killed : Bool
  status : Int
  image : Image

abbrev Table (A : Type) := Slot → Proc A

/-- `initproc`, the first entry that `allocproc` gives out. -/
def initproc : Slot := ⟨0,by decide⟩

/-- An `int` that wraps around. -/
def int32 (x : Int) : Int := (x + 2 ^ 31) % 2 ^ 32 - 2 ^ 31

section
variable {A : Type} [DecidableEq A]

def unused (t : Table A) : Option Slot := (List.finRange NPROC).find? fun p => (t p).state = .UNUSED

/-- Wake up all processes sleeping on chan. -/
def wakeup1 (t : Table A) (chan : Option (Chan A)) : Table A := fun p =>
  if (t p).state = .SLEEPING ∧ (t p).chan = chan then { t p with state := .RUNNABLE } else t p

def find (t : Table A) (pid : Int) : Option Slot := (List.finRange NPROC).find? fun p => (t p).pid = pid

/-- Kill the process with the given pid. -/
def kill (t : Table A) (pid : Int) : Int × Table A :=
  match find t pid with
  | some p =>
    -- Wake process from sleep if necessary.
    (0,Function.update t p { t p with killed := true, state := if (t p).state = .SLEEPING then .RUNNABLE else (t p).state })
  | none => (-1,t)

structure ProcStat where
  name : List UInt8
  state : ProcState
  sz : Nat
  nofile : Nat

def pstat (t : Table A) (pid : Int) : Int × Option ProcStat :=
  match find t pid with
  | some p => (0,some ⟨(t p).image.name,(t p).state,(t p).image.sz,((List.finRange NOFILE).filter (t p).image.ofile).length⟩)
  | none => (-1,none)

/-- One turn of the loop of `exit` that passes abandoned children to init. -/
def abandon (p : Slot) (t : Table A) (q : Slot) : Table A :=
  if (t q).parent = some p then
    if (t q).state = .ZOMBIE then wakeup1 (Function.update t q { t q with parent := some initproc }) (some (.proc initproc))
    else Function.update t q { t q with parent := some initproc }
  else t

def exit (t : Table A) (p : Slot) : Table A :=
  -- Parent might be sleeping in wait(0).
  let t := wakeup1 t ((t p).parent.map .proc)
  let t := (List.finRange NPROC).foldl (abandon p) t
  Function.update t p { t p with state := .ZOMBIE }

def zombie (t : Table A) (p : Slot) : Option Slot :=
  (List.finRange NPROC).find? fun q => (t q).parent = some p ∧ (t q).state = .ZOMBIE

def havekids (t : Table A) (p : Slot) : Bool := (List.finRange NPROC).any fun q => (t q).parent = some p

def reap (t : Table A) (q : Slot) : Table A :=
  Function.update t q { t q with
    state := .UNUSED
    pid := 0
    parent := none
    killed := false
    image := { (t q).image with name := 0 :: (t q).image.name.tail } }

end

/-- Where `scheduler` stands: before it takes `ptable.lock`, in the loop over the table, or
    with a process that it has chosen, marked `RUNNING`, and switched to. -/
inductive Scheduler where
  | idle
  | scan (i : Nat)
  | chosen (p : Slot)
  | marked (p : Slot)
  | back (p : Slot)
  deriving DecidableEq

/-- The variable `proc`, the stack it runs on and the page directory it has loaded, each of
    a process or, for `none`, of the scheduler. -/
structure Cpu where
  proc : Option Slot
  stack : Option Slot
  cr3 : Option Slot
  sched : Scheduler

/-- A place where the kernel thread of a process has no lock, so that the timer can make it yield. -/
inductive Place (K : Type) where
  /-- In user space, or in the rest of the kernel. -/
  | outside
  /-- At the end of `sleep`. -/
  | relock (lk : K)
  /-- In `exit`, before it takes `ptable.lock`. -/
  | exit
  /-- In `fork`, with an entry, with a kernel stack too, with a copy of the parent. -/
  | forkEntry (np : Slot)
  | forkStack (np : Slot)
  | forkCopy (np : Slot)

/-- Where `sched` was called. -/
inductive After (K : Type) where
  /-- In `yield`, for a process that stands here. -/
  | yield (place : Place K)
  | sleep (lk : K)
  /-- `sleep(proc, &ptable.lock)` in `wait`, which has a pointer for the status or not. -/
  | wait (status : Bool)
  | exit

/-- Where the kernel thread of a process stands. -/
inductive Pos (K A : Type) where
  | unlocked (place : Place K)
  | forkret
  /-- In `yield`, with `ptable.lock`. -/
  | yield (place : Place K)
  /-- In `sleep`, with `ptable.lock` and the lock of its caller. -/
  | sleepLocked (chan : Chan A) (lk : K)
  /-- In `sleep`, with `ptable.lock` alone. -/
  | sleep (chan : Chan A) (after : After K)
  /-- In `sched`, before `swtch`. -/
  | sched (after : After K)
  /-- In `sched`, behind `swtch`. -/
  | back (after : After K)
  | exiting
  /-- At the loop of `wait`, with `ptable.lock`. -/
  | wait (status : Bool)
  /-- In `wait`, with the value to return. -/
  | waited (r : Int)

@[match_pattern] abbrev Pos.outside {K A : Type} : Pos K A := .unlocked .outside
@[match_pattern] abbrev Pos.relock {K A : Type} (lk : K) : Pos K A := .unlocked (.relock lk)
@[match_pattern] abbrev Pos.exit {K A : Type} : Pos K A := .unlocked .exit
@[match_pattern] abbrev Pos.forkEntry {K A : Type} (np : Slot) : Pos K A := .unlocked (.forkEntry np)
@[match_pattern] abbrev Pos.forkStack {K A : Type} (np : Slot) : Pos K A := .unlocked (.forkStack np)
@[match_pattern] abbrev Pos.forkCopy {K A : Type} (np : Slot) : Pos K A := .unlocked (.forkCopy np)

/-- A call of `exit`: the number of the process in the order of `allocproc`, its pid and
    the status. -/
structure Exited where
  born : Nat
  pid : Int
  status : Int
  deriving DecidableEq

/-- A `wait` that has found a child: who waited, the child's parent and number, the value
    returned and the status stored, if the pointer was not null. -/
structure Reaped where
  waiter : Slot
  parent : Option Slot
  born : Nat
  pid : Int
  status : Option Int
  deriving DecidableEq

/-- The table, the holder of `ptable.lock`, the CPUs with their `ncli`, the kernel threads, the
    other spinlocks, and what the last call of each process returned. The rest is history:
    how often `allocproc` was called, the number of each process, and the calls of `exit`
    and `wait`. -/
structure State (C K A : Type) where
  procs : Table A
  table : Option C
  cpus : C → Cpu
  ncli : C → Nat
  pos : Slot → Pos K A
  locks : K → Option Slot
  nextpid : Int
  ret : Slot → Int
  allocs : Nat
  born : Slot → Nat
  exits : List Exited
  reaps : List Reaped

variable {C K A : Type} [DecidableEq C] [DecidableEq K] [DecidableEq A]

/-- After `userinit`: the first process is ready, and each CPU enters its scheduler. -/
def State.init (C K A : Type) (image : Slot → Image) : State C K A where
  procs p := if p = initproc then ⟨.RUNNABLE,1,none,none,false,0,image p⟩ else ⟨.UNUSED,0,none,none,false,0,image p⟩
  table := none
  cpus _ := ⟨none,none,none,.idle⟩
  ncli _ := 0
  pos _ := .forkret
  locks _ := none
  nextpid := 2
  ret _ := 0
  allocs := 1
  born _ := 0
  exits := []
  reaps := []

/-- What a process does next when it is in none of these functions. -/
inductive Call (K A : Type) where
  | acquire (lk : K)
  | release (lk : K)
  | sleep (chan : A) (lk : Option K)
  | wakeup (chan : A)
  | kill (pid : Int)
  | pstat (pid : Int)
  | fork
  | exit (status : Int)
  | wait (status : Bool)
  /-- A trap in user space sets `killed`. -/
  | trap
  /-- `exec`, `growproc` and the file calls change the process itself. -/
  | change (image : Image)

inductive Action (C K A : Type) where
  | scheduler (c : C)
  /-- An interrupt on a CPU calls `wakeup`. -/
  | interrupt (c : C) (chan : A)
  | call (c : C) (call : Call K A)
  /-- The timer interrupts the process on a CPU, which calls `yield` wherever it is; while a
      spinlock is held the interrupts are off. -/
  | yield (c : C)
  /-- The next step of the process on a CPU; `ok` tells whether `kalloc` and `copyuvm` have
      memory, and in `sched` that the interrupts are off. -/
  | turn (c : C) (ok : Bool)

abbrev Result (C K A : Type) := Option (Except String (State C K A))

namespace State

def goto (s : State C K A) (p : Slot) (pos : Pos K A) : State C K A := { s with pos := Function.update s.pos p pos }
def setProc (s : State C K A) (p : Slot) (pr : Proc A) : State C K A := { s with procs := Function.update s.procs p pr }
def returns (s : State C K A) (p : Slot) (r : Int) : State C K A := { s with ret := Function.update s.ret p r }
def setCpu (s : State C K A) (c : C) (cpu : Cpu) : State C K A := { s with cpus := Function.update s.cpus c cpu }

/-- `acquire(&ptable.lock)`; while another CPU has it, this one spins. -/
def lock (s : State C K A) (c : C) : Result C K A :=
  match s.table with
  | none => some (.ok { s with table := some c, ncli := Function.update s.ncli c (s.ncli c + 1) })
  | some holder => if holder = c then some (.error "acquire") else none

def unlock (s : State C K A) (c : C) : Result C K A :=
  if s.table = some c then some (.ok { s with table := none, ncli := Function.update s.ncli c (s.ncli c - 1) })
  else some (.error "release")

/-- `acquire(lk)` for another spinlock. -/
def acquire (s : State C K A) (c : C) (p : Slot) (lk : K) : Result C K A :=
  match s.locks lk with
  | none => some (.ok { s with locks := Function.update s.locks lk (some p), ncli := Function.update s.ncli c (s.ncli c + 1) })
  | some holder => if holder = p then some (.error "acquire") else none

/-- `release(lk)` for another spinlock. -/
def release (s : State C K A) (c : C) (p : Slot) (lk : K) : Result C K A :=
  if s.locks lk = some p then
    some (.ok { s with locks := Function.update s.locks lk none, ncli := Function.update s.ncli c (s.ncli c - 1) })
  else some (.error "release")

def andThen (r : Result C K A) (f : State C K A → State C K A) : Result C K A := r.map fun r => r.map f

/-- A section under `ptable.lock` that is over in one step. -/
def critical (s : State C K A) (f : State C K A → State C K A) : Result C K A :=
  match s.table with
  | none => some (.ok (f s))
  | some _ => none

/-- `allocproc` up to the kernel stack. -/
def allocproc (s : State C K A) (p : Slot) : State C K A :=
  match unused s.procs with
  | none => { s.returns p (-1) with allocs := s.allocs + 1 }
  | some np =>
    { (s.setProc np { s.procs np with state := .EMBRYO, pid := s.nextpid }).goto p (.forkEntry np) with
      nextpid := int32 (s.nextpid + 1)
      allocs := s.allocs + 1
      born := Function.update s.born np s.allocs }

def scheduler (s : State C K A) (c : C) : Result C K A :=
  let cpu := s.cpus c
  match cpu.sched with
  | .idle => andThen (s.lock c) fun s => s.setCpu c { cpu with sched := .scan 0 }
  | .scan i =>
    if inside : i < NPROC then
      if (s.procs ⟨i,inside⟩).state ≠ .RUNNABLE then some (.ok (s.setCpu c { cpu with sched := .scan (i + 1) }))
      else some (.ok (s.setCpu c { cpu with proc := some ⟨i,inside⟩, cr3 := some ⟨i,inside⟩, sched := .chosen ⟨i,inside⟩ }))
    else andThen (s.unlock c) fun s => s.setCpu c { cpu with sched := .idle }
  | .chosen p => some (.ok ((s.setProc p { s.procs p with state := .RUNNING }).setCpu c { cpu with sched := .marked p }))
  | .marked p => some (.ok (s.setCpu c { cpu with stack := some p, sched := .back p }))
  | .back p => some (.ok (s.setCpu c { cpu with proc := none, cr3 := none, sched := .scan (p + 1) }))

def call (s : State C K A) (c : C) (p : Slot) : Call K A → Result C K A
  | .acquire lk => s.acquire c p lk
  | .release lk => s.release c p lk
  | .sleep chan lk =>
    if (s.cpus c).proc = none then some (.error "sleep")
    else
      match lk with
      | none => some (.error "sleep without lk")
      | some lk => andThen (s.lock c) fun s => s.goto p (.sleepLocked (.addr chan) lk)
  | .wakeup chan => s.critical fun s => { s with procs := wakeup1 s.procs (some (.addr chan)) }
  | .kill pid => s.critical fun s => { s.returns p (Procs.kill s.procs pid).1 with procs := (Procs.kill s.procs pid).2 }
  | .pstat pid => s.critical fun s => s.returns p (Procs.pstat s.procs pid).1
  | .fork => s.critical fun s => s.allocproc p
  | .exit status =>
    if p = initproc then some (.error "init exiting")
    else some (.ok ((s.setProc p { s.procs p with
      status := status
      image := { (s.procs p).image with ofile := fun _ => false } }).goto p .exit))
  | .wait status => andThen (s.lock c) fun s => s.goto p (.wait status)
  | .trap => some (.ok (s.setProc p { s.procs p with killed := true }))
  | .change image => some (.ok (s.setProc p { s.procs p with image := image }))

/-- A step of a process that is in one of the functions. -/
def turn (s : State C K A) (c : C) (p : Slot) (ok : Bool) : Result C K A :=
  let pr := s.procs p
  match s.pos p with
  | .outside => none
  | .forkret => andThen (s.unlock c) fun s => s.goto p .outside
  | .yield place => some (.ok ((s.setProc p { pr with state := .RUNNABLE }).goto p (.sched (.yield place))))
  | .sleepLocked chan lk => andThen (s.release c p lk) fun s => s.goto p (.sleep chan (.sleep lk))
  | .sleep chan after => some (.ok ((s.setProc p { pr with chan := some chan, state := .SLEEPING }).goto p (.sched after)))
  | .sched after =>
    if s.table ≠ some c then some (.error "sched ptable.lock")
    else if s.ncli c ≠ 1 then some (.error "sched locks")
    else if pr.state = .RUNNING then some (.error "sched running")
    else if ok = false then some (.error "sched interruptible")
    else some (.ok ((s.goto p (.back after)).setCpu c { s.cpus c with stack := none }))
  | .back (.yield place) => andThen (s.unlock c) fun s => s.goto p (.unlocked place)
  | .back (.sleep lk) => andThen ((s.setProc p { pr with chan := none }).unlock c) fun s => s.goto p (.relock lk)
  | .back (.wait status) => some (.ok ((s.setProc p { pr with chan := none }).goto p (.wait status)))
  | .back .exit => some (.error "zombie exit")
  | .relock lk => andThen (s.acquire c p lk) fun s => s.goto p .outside
  | .exit => andThen (s.lock c) fun s => s.goto p .exiting
  | .exiting => some (.ok { ({ s with procs := Procs.exit s.procs p } : State C K A).goto p (.sched .exit) with
      exits := ⟨s.born p,pr.pid,pr.status⟩ :: s.exits })
  | .wait status =>
    match zombie s.procs p with
    | some q => some (.ok { ({ s with procs := reap s.procs q } : State C K A).goto p (.waited (s.procs q).pid) with
        reaps := ⟨p,(s.procs q).parent,s.born q,(s.procs q).pid,if status then some (s.procs q).status else none⟩ :: s.reaps })
    | none =>
      -- No point waiting if we don't have any children.
      if havekids s.procs p = false ∨ pr.killed = true then some (.ok (s.goto p (.waited (-1))))
      else some (.ok (s.goto p (.sleep (.proc p) (.wait status))))
  | .waited r => andThen (s.unlock c) fun s => (s.goto p .outside).returns p r
  | .forkEntry np =>
    if ok then some (.ok ((s.goto np .forkret).goto p (.forkStack np)))
    else some (.ok (((s.setProc np { s.procs np with state := .UNUSED }).goto p .outside).returns p (-1)))
  | .forkStack np =>
    if ok then some (.ok ((s.setProc np { s.procs np with
      parent := some p
      image := { pr.image with ofile := fun fd => pr.image.ofile fd || (s.procs np).image.ofile fd } }).goto p (.forkCopy np)))
    else some (.ok (((s.setProc np { s.procs np with state := .UNUSED }).goto p .outside).returns p (-1)))
  | .forkCopy np => s.critical fun s =>
      ((s.setProc np { s.procs np with state := .RUNNABLE }).goto p .outside).returns p (s.procs np).pid

end State

/-- One step. A CPU that runs on the stack of a process does what the process does. -/
def step (s : State C K A) : Action C K A → Result C K A
  | .scheduler c =>
    match (s.cpus c).stack with
    | none => s.scheduler c
    | some _ => none
  | .interrupt _ chan => s.critical fun s => { s with procs := wakeup1 s.procs (some (.addr chan)) }
  | .call c call =>
    match (s.cpus c).stack with
    | none => none
    | some p =>
      match s.pos p with
      | .outside => s.call c p call
      | _ => none
  | .yield c =>
    match (s.cpus c).stack with
    | none => none
    | some p =>
      match s.pos p with
      | .unlocked place => if s.ncli c = 0 then State.andThen (s.lock c) fun s => s.goto p (.yield place) else none
      | _ => none
  | .turn c ok =>
    match (s.cpus c).stack with
    | none => none
    | some p => s.turn c p ok

def Reachable (image : Slot → Image) : State C K A → Prop := Steps.Reachable step (fun _ _ => True) (State.init C K A image)

end Osce.Procs
