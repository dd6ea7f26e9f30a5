import Osce.Vm.Sbrk

/-!
The kernel's tables over the physical memory: processes with their address spaces and kernel stacks, and pipes with the files
that refer to them. The calls that take and give back pages are programs over one interface, from `main`, which puts the
pages on the free list and makes the first process, to `fork`, `exec`, `exit`, `wait`, `sbrk`, `pipe` and `close`. A call
runs without another call in between, and between two calls a process may change its own memory.
-/
namespace Osce.Vm
open Osce.Lib

def NPROC : Nat := 64
def NOFILE : Nat := 16
def NFILE : Nat := 100

/-- A process that has been made waits, runs or sleeps: all of that is `RUNNABLE` here. -/
inductive ProcState where
  | UNUSED
  | EMBRYO
  | RUNNABLE
  | ZOMBIE
  deriving DecidableEq

structure Proc where
  state : ProcState
  pgdir : Nat
  kstack : Nat
  sz : Nat
  parent : Option Nat
  ofile : Nat → Option Nat

/-- An entry of `ftable`. A file of type `FD_PIPE` has the page of its pipe, and whether it is the writable end. -/
structure File where
  ref : Nat
  pipe : Option (Nat × Bool)

/-- `readopen` and `writeopen` -/
structure Pipe where
  readopen : Bool
  writeopen : Bool
  deriving DecidableEq

/-- The memory, `kpgdir`, the table of processes, the table of files, and the pipes by their pages. -/
structure Machine where
  mem : Mem
  kpgdir : Nat
  proc : Nat → Proc
  file : Nat → File
  pipe : Nat → Pipe

def userByte (m : Mem) (pgdir va : Nat) : Option UInt8 :=
  if isPresent (m.pte pgdir (va / PGSIZE)) && isUser (m.pte pgdir (va / PGSIZE)) then
    some ((m.page (PTE_ADDR (m.pte pgdir (va / PGSIZE)))).get (va % PGSIZE))
  else none

/-- The loop of `fetchstr`, with the number of bytes up to the size of the process. -/
def fetchstr_from (m : Mem) (pgdir : Nat) : Nat → Nat → Except Stop (Option (List UInt8))
  | 0, _ => .ok none
  | left + 1, s =>
    match userByte m pgdir s with
    | none => .error (.panic "trap")
    | some b =>
      if b = 0 then .ok (some [])
      else
        match fetchstr_from m pgdir left (s + 1) with
        | .ok (some rest) => .ok (some (b :: rest))
        | .ok none => .ok none
        | .error e => .error e

/-- Fetch the nul-terminated string at addr from the current process. -/
def fetchstr (m : Mem) (pgdir sz addr : Nat) : Except Stop (Option (List UInt8)) :=
  if addr ≥ sz then .ok none else fetchstr_from m pgdir (sz - addr) addr

inductive SysOp where
  | vm (op : VmOp)
  | setKpgdir (pgdir : Nat)
  | proc (i : Nat)
  | setProc (i : Nat) (p : Proc)
  | file (f : Nat)
  | setFile (f : Nat) (new : File)
  | pipe (page : Nat)
  | setPipe (page : Nat) (new : Pipe)
  | fetchstr (pgdir sz addr : Nat)
  | sleep
  | panic (message : String)

@[reducible] def SysOp.Ans : SysOp → Type
  | .vm op => op.Ans
  | .proc _ => Proc
  | .file _ => File
  | .pipe _ => Pipe
  | .fetchstr _ _ _ => Option (List UInt8)
  | .sleep => Empty
  | .panic _ => Empty
  | _ => Unit

abbrev SysSig : Sig := ⟨SysOp,SysOp.Ans⟩
abbrev SysProg := Prog SysSig

def ask (op : SysOp) : SysProg op.Ans := Prog.perform (S := SysSig) op
def stop {α : Type} (message : String) : SysProg α := .call (S := SysSig) (.panic message) Empty.elim
def sleep {α : Type} : SysProg α := .call (S := SysSig) .sleep Empty.elim

def inMem {α : Type} (p : VmProg α) : SysProg α := Prog.interp (T := SysSig) (fun op => ask (.vm op)) p

def onMem {α : Type} (s : Machine) : Except Stop (α × Mem) → Except Stop (α × Machine)
  | .ok (a,m) => .ok (a,{ s with mem := m })
  | .error e => .error e

def sysHandle (env : Env) : Handler SysSig Machine
  | .vm op, s => onMem s (handle env op s.mem)
  | .setKpgdir pgdir, s => .ok ((),{ s with kpgdir := pgdir })
  | .proc i, s => .ok (s.proc i,s)
  | .setProc i p, s => .ok ((),{ s with proc := Function.update s.proc i p })
  | .file f, s => .ok (s.file f,s)
  | .setFile f new, s => .ok ((),{ s with file := Function.update s.file f new })
  | .pipe page, s => .ok (s.pipe page,s)
  | .setPipe page new, s => .ok ((),{ s with pipe := Function.update s.pipe page new })
  | .fetchstr pgdir sz addr, s =>
    match fetchstr s.mem pgdir sz addr with
    | .ok r => .ok (r,s)
    | .error e => .error e
  | .sleep, _ => .error .sleep
  | .panic message, _ => .error (.panic message)

def filealloc_from : List Nat → SysProg (Option Nat)
  | [] => pure none
  | f :: rest => do
    let old ← ask (.file f)
    if old.ref = 0 then do
      ask (.setFile f { old with ref := 1 })
      pure (some f)
    else filealloc_from rest

def filealloc : SysProg (Option Nat) := filealloc_from (List.range NFILE)

def filedup (f : Nat) : SysProg Unit := do
  let old ← ask (.file f)
  if old.ref < 1 then stop "filedup"
  else ask (.setFile f { old with ref := old.ref + 1 })

/-- The ends that are open after `pipeclose`. -/
def Pipe.close (p : Pipe) (writable : Bool) : Pipe :=
  if writable then { p with writeopen := false } else { p with readopen := false }

def Pipe.isOpen (p : Pipe) : Bool := p.readopen || p.writeopen

def pipeclose (page : Nat) (writable : Bool) : SysProg Unit := do
  let p ← ask (.pipe page)
  ask (.setPipe page (p.close writable))
  if (p.close writable).isOpen then pure () else inMem (perform (.kfree page))

def fileclose_last : Option (Nat × Bool) → SysProg Unit
  | none => pure ()
  | some (page,writable) => pipeclose page writable

def fileclose (f : Nat) : SysProg Unit := do
  let old ← ask (.file f)
  if old.ref < 1 then stop "fileclose"
  else if old.ref - 1 > 0 then ask (.setFile f { old with ref := old.ref - 1 })
  else do
    ask (.setFile f ⟨0,none⟩)
    fileclose_last old.pipe

/-- `pipealloc`: the two files, or `none` for -1. -/
def pipealloc : SysProg (Option (Nat × Nat)) := do
  let f0 ← filealloc
  match f0 with
  | none => pure none
  | some f0 => do
    let f1 ← filealloc
    match f1 with
    | none => do
      fileclose f0
      pure none
    | some f1 => do
      let p ← inMem (perform (.kalloc false))
      match p with
      | none => do
        fileclose f0
        fileclose f1
        pure none
      | some p => do
        ask (.setPipe p ⟨true,true⟩)
        let a ← ask (.file f0)
        ask (.setFile f0 { a with pipe := some (p,false) })
        let b ← ask (.file f1)
        ask (.setFile f1 { b with pipe := some (p,true) })
        pure (some (f0,f1))

def fdalloc_from (i f : Nat) : List Nat → SysProg (Option Nat)
  | [] => pure none
  | fd :: rest => do
    let p ← ask (.proc i)
    if p.ofile fd = none then do
      ask (.setProc i { p with ofile := Function.update p.ofile fd (some f) })
      pure (some fd)
    else fdalloc_from i f rest

def fdalloc (i f : Nat) : SysProg (Option Nat) := fdalloc_from i f (List.range NOFILE)

/-- `proc->ofile[fd] = 0` -/
def clearfd (i fd : Nat) : SysProg Unit := do
  let p ← ask (.proc i)
  ask (.setProc i { p with ofile := Function.update p.ofile fd none })

/-- `sys_pipe` of the process i; `false` for -1. -/
def sys_pipe (i : Nat) : SysProg Bool := do
  let files ← pipealloc
  match files with
  | none => pure false
  | some (rf,wf) => do
    let fd0 ← fdalloc i rf
    match fd0 with
    | none => do
      fileclose rf
      fileclose wf
      pure false
    | some fd0 => do
      let fd1 ← fdalloc i wf
      match fd1 with
      | none => do
        clearfd i fd0
        fileclose rf
        fileclose wf
        pure false
      | some _ => pure true

/-- `proc->ofile[fd]` is closed, if there is a file. -/
def closefd (i fd : Nat) : SysProg Bool := do
  let p ← ask (.proc i)
  match p.ofile fd with
  | none => pure false
  | some f => do
    clearfd i fd
    fileclose f
    pure true

def sys_close (i fd : Nat) : SysProg Bool := if fd < NOFILE then closefd i fd else pure false

/-- `allocproc` from `found` on: the kernel stack. -/
def allocproc_found (i : Nat) : SysProg (Option Nat) := do
  let p ← ask (.proc i)
  ask (.setProc i { p with state := .EMBRYO })
  let kstack ← inMem (perform (.kalloc false))
  match kstack with
  | none => do
    ask (.setProc i { p with kstack := 0, state := .UNUSED })
    pure none
  | some kstack => do
    ask (.setProc i { p with kstack := kstack, state := .EMBRYO })
    pure (some i)

def allocproc_from : List Nat → SysProg (Option Nat)
  | [] => pure none
  | i :: rest => do
    let p ← ask (.proc i)
    if p.state = .UNUSED then allocproc_found i else allocproc_from rest

/-- Look in the process table for an UNUSED proc. -/
def allocproc : SysProg (Option Nat) := allocproc_from (List.range NPROC)

def fork_files (ofile : Nat → Option Nat) (np : Nat) : List Nat → SysProg Unit
  | [] => pure ()
  | fd :: rest =>
    match ofile fd with
    | none => fork_files ofile np rest
    | some f => do
      filedup f
      let p ← ask (.proc np)
      ask (.setProc np { p with ofile := Function.update p.ofile fd (some f) })
      fork_files ofile np rest

/-- `fork` by the process i: the entry of the child, or `none` for -1. -/
def fork (i : Nat) : SysProg (Option Nat) := do
  let np ← allocproc
  match np with
  | none => pure none
  | some np => do
    let cur ← ask (.proc i)
    let pgdir ← inMem (copyuvm cur.pgdir cur.sz)
    let p ← ask (.proc np)
    match pgdir with
    | none => do
      inMem (perform (.kfree p.kstack))
      ask (.setProc np { p with pgdir := 0, kstack := 0, state := .UNUSED })
      pure none
    | some pgdir => do
      ask (.setProc np { p with pgdir := pgdir, sz := cur.sz, parent := some i })
      fork_files cur.ofile np (List.range NOFILE)
      let p ← ask (.proc np)
      ask (.setProc np { p with state := .RUNNABLE })
      pure (some np)

def exit_files (i : Nat) : List Nat → SysProg Unit
  | [] => pure ()
  | fd :: rest => do
    let p ← ask (.proc i)
    match p.ofile fd with
    | none => exit_files i rest
    | some f => do
      fileclose f
      clearfd i fd
      exit_files i rest

/-- `initproc`, which is the first entry that `allocproc` gives out. -/
def initproc : Nat := 0

/-- The loop of `exit` that passes abandoned children to init. -/
def exit_children (i : Nat) : List Nat → SysProg Unit
  | [] => pure ()
  | j :: rest => do
    let p ← ask (.proc j)
    if p.parent = some i then do
      ask (.setProc j { p with parent := some initproc })
      exit_children i rest
    else exit_children i rest

def exit (i : Nat) : SysProg Unit := do
  if i = initproc then stop "init exiting"
  else do
    exit_files i (List.range NOFILE)
    exit_children i (List.range NPROC)
    let p ← ask (.proc i)
    ask (.setProc i { p with state := .ZOMBIE })

def wait_found (j : Nat) : SysProg Unit := do
  let p ← ask (.proc j)
  inMem (perform (.kfree p.kstack))
  ask (.setProc j { p with kstack := 0 })
  inMem (freevm p.pgdir)
  ask (.setProc j { p with kstack := 0, state := .UNUSED, parent := none })

/-- The loop of `wait`: the child, or whether there is one. -/
def wait_from (i : Nat) : List Nat → Bool → SysProg (Option Nat)
  | [], havekids => if havekids then sleep else pure none
  | j :: rest, havekids => do
    let p ← ask (.proc j)
    if p.parent ≠ some i then wait_from i rest havekids
    else if p.state = .ZOMBIE then do
      wait_found j
      pure (some j)
    else wait_from i rest true

/-- Wait for a child process to exit: its entry, or `none` for -1. A call that has to wait is one that has not been made yet. -/
def wait (i : Nat) : SysProg (Option Nat) := wait_from i (List.range NPROC) false

def sbrk (i : Nat) (n : Int) : SysProg Int := do
  let p ← ask (.proc i)
  let (r,sz) ← inMem (sys_sbrk p.pgdir p.sz n)
  ask (.setProc i { p with sz := sz })
  pure r

/-- The loop of `sys_exec` over the addresses of the argument strings. -/
def fetchargs (p : Proc) : List Nat → SysProg (Option (List (List UInt8)))
  | [] => pure (some [])
  | addr :: rest => do
    let arg ← ask (.fetchstr p.pgdir p.sz addr)
    match arg with
    | none => pure none
    | some arg => do
      let args ← fetchargs p rest
      match args with
      | none => pure none
      | some args => pure (some (arg :: args))

/-- `exec` with its commit; `false` for -1. -/
def exec_commit (i : Nat) (p : Proc) (file : List UInt8) (argv : List (List UInt8)) : SysProg Bool := do
  let image ← inMem (exec p.pgdir file argv)
  match image with
  | none => pure false
  | some image => do
    ask (.setProc i { p with pgdir := image.pgdir, sz := image.sz })
    inMem (switchuvm image.pgdir)
    inMem (freevm p.pgdir)
    pure true

/-- `sys_exec` of the process i, for the contents of the file and the addresses of the arguments. -/
def sys_exec (i : Nat) (file : List UInt8) (uargv : List Nat) : SysProg Bool := do
  if uargv.length ≥ MAXARG then pure false
  else do
    let p ← ask (.proc i)
    let argv ← fetchargs p uargv
    match argv with
    | none => pure false
    | some argv => exec_commit i p file argv

inductive Call where
  | fork
  | exec (file : List UInt8) (uargv : List Nat)
  | exit
  | wait
  | sbrk (n : Int)
  | pipe
  | close (fd : Nat)

def Call.run (i : Nat) : Call → SysProg Unit
  | .fork => do let _ ← Vm.fork i
  | .exec file uargv => do let _ ← sys_exec i file uargv
  | .exit => Vm.exit i
  | .wait => do let _ ← Vm.wait i
  | .sbrk n => do let _ ← Vm.sbrk i n
  | .pipe => do let _ ← sys_pipe i
  | .close fd => do let _ ← sys_close i fd

def failing (refuse : Nat → Bool) : Env := ⟨refuse,fun _ => true⟩

/-- The user code of a process has changed pages that it may write to. -/
def UserWrites (m m' : Mem) (pgdir : Nat) : Prop :=
  m'.freelist = m.freelist ∧ m'.calls = m.calls ∧
    ∀ y, (∀ v < USERPAGES, isPresent (m.pte pgdir v) = true → isUser (m.pte pgdir v) = true → PTE_ADDR (m.pte pgdir v) ≠ y) →
      m'.page y = m.page y

/-- A call of a process that is allowed, or what it does in its own memory. -/
inductive Step (refuse : Nat → Bool) (allowed : Machine → Nat → Call → Prop) : Machine → Machine → Prop where
  | user {s : Machine} {i : Nat} {m' : Mem} (inside : i < NPROC) (running : (s.proc i).state = .RUNNABLE)
      (writes : UserWrites s.mem m' (s.proc i).pgdir) : Step refuse allowed s { s with mem := m' }
  | call {s s' : Machine} {i : Nat} (c : Call) (inside : i < NPROC) (running : (s.proc i).state = .RUNNABLE) (fine : allowed s i c)
      (run : Prog.exec (sysHandle (failing refuse)) (c.run i) s = .ok ((),s')) : Step refuse allowed s s'

end Osce.Vm
