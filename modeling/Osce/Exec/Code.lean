import Osce.Sys.Code
import Osce.Vm.Sbrk

/-!
The whole of `exec.c`: the transaction and the inode of the file, the new address space, and the commit to the process.
It is a program over the tables of the file system (`Osce.Sys`), the physical memory (`Osce.Vm`) and the entry of the process
that calls it. The rest of the kernel may answer the operations on the file system in any way; a ledger counts the references and
locks that the call has taken and not released, and its calls of `begin_op` and `end_op`.
-/
namespace Osce.Exec
open Osce.Lib
open Osce.Sys (Entry Fd File SysOp SysSig SysProg)
open Osce.Vm (VmOp VmProg VmSig Mem Env Image)

structure Trapframe where
  eip : Nat
  esp : Nat
  deriving DecidableEq

/-- The entry of the calling process, as far as `exec` reads or writes it. -/
@[ext] structure Process where
  pgdir : Nat
  sz : Nat
  tf : Trapframe
  name : Bytes 16
  ofile : Fd → Option File
  cwd : Option Entry

/-- What the call has taken and not given back yet, and how often it has begun and ended a transaction. -/
@[ext] structure Ledger where
  refs : Entry → Int
  locks : Entry → Int
  begins : Nat
  ends : Nat

namespace Ledger

def addRef (l : Ledger) (e : Entry) (k : Int) : Ledger := { l with refs := fun x => l.refs x + if x = e then k else 0 }
def addLock (l : Ledger) (e : Entry) (k : Int) : Ledger := { l with locks := fun x => l.locks x + if x = e then k else 0 }

/-- The ledger after an operation and its answer. `iput` locks the inode that it frees. -/
def after : (op : SysOp) → op.Ans → Ledger → Ledger
  | .begin_op, _, l => { l with begins := l.begins + 1 }
  | .end_op, _, l => { l with ends := l.ends + 1 }
  | .iget _, e, l => l.addRef e 1
  | .idup e, _, l => l.addRef e 1
  | .lock e, _, l => l.addLock e 1
  | .unlock e, _, l => l.addLock e (-1)
  | .putBegin e, free, l => if free then l.addLock e 1 else l.addRef e (-1)
  | .putEnd e, _, l => (l.addLock e (-1)).addRef e (-1)
  | _, _, l => l

end Ledger

structure Own (σ : Type) where
  fs : σ
  proc : Process
  ledger : Ledger

/-- The operations of the call, with any file system that answers them. -/
def audit {σ : Type} (fs : Handler SysSig σ) : Handler SysSig (Own σ)
  | .cwd, s => .ok (s.proc.cwd,s)
  | .ofile fd, s => .ok (s.proc.ofile fd,s)
  | .setCwd ip, s => .ok ((),{ s with proc := { s.proc with cwd := ip } })
  | .setOfile fd f, s => .ok ((),{ s with proc := { s.proc with ofile := fun x => if x = fd then f else s.proc.ofile x } })
  | op, s =>
    match fs op s.fs with
    | .ok (a,t) => .ok (a,{ s with fs := t, ledger := s.ledger.after op a })
    | .error e => .error e

inductive ExecOp where
  | fs (op : SysOp)
  | vm (op : VmOp)
  /-- What `readi` finds in the locked inode of the file. -/
  | contents (ip : Entry)
  | proc
  | setProc (p : Process)

@[reducible] def ExecOp.Ans : ExecOp → Type
  | .fs op => op.Ans
  | .vm op => op.Ans
  | .contents _ => List UInt8
  | .proc => Process
  | .setProc _ => Unit

abbrev ExecSig : Sig := ⟨ExecOp,ExecOp.Ans⟩
abbrev ExecProg := Prog ExecSig

def ask (op : ExecOp) : ExecProg op.Ans := Prog.perform (S := ExecSig) op

def onFs {α : Type} (p : SysProg α) : ExecProg α := Prog.interp (T := ExecSig) (fun op => ask (.fs op)) p
def inMem {α : Type} (p : VmProg α) : ExecProg α := Prog.interp (T := ExecSig) (fun op => ask (.vm op)) p

structure World (σ : Type) where
  own : Own σ
  mem : Mem

/-- The machine, in which the file that is found has these contents. -/
def handle {σ : Type} (fs : Handler SysSig σ) (file : List UInt8) (env : Env) : Handler ExecSig (World σ)
  | .fs op, s =>
    match audit fs op s.own with
    | .ok (a,own) => .ok (a,{ s with own := own })
    | .error e => .error e
  | .vm op, s =>
    match Vm.handle env op s.mem with
    | .ok (a,mem) => .ok (a,{ s with mem := mem })
    | .error e => .error e
  | .contents _, s => .ok (file,s)
  | .proc, s => .ok (s.own.proc,s)
  | .setProc p, s => .ok ((),{ s with own := { s.own with proc := p } })

@[irreducible] def bad (pgdir : Option Nat) (ip : Option Entry) : ExecProg Int := do
  match pgdir with
  | some pgdir => inMem (Vm.freevm pgdir)
  | none => pure ()
  match ip with
  | some ip => do
    onFs (Sys.iunlockput ip)
    onFs (Sys.perform .end_op)
  | none => pure ()
  pure (-1)

/-- `last`: what follows the last slash of the path. -/
def last (path : List UInt8) : List UInt8 := (path.reverse.takeWhile (· ≠ 47)).reverse

/-- `safestrcpy(s, t, sizeof(proc->name))`; the loop has copied the zero of a short string already. -/
def safestrcpy (s : Bytes 16) (t : List UInt8) : Bytes 16 := s.write 0 (if t.length < 15 then t ++ [0,0] else t.take 15 ++ [0])

/-- Commit to the user image. -/
def commit (path : List UInt8) (image : Image) : ExecProg Int := do
  let p ← ask .proc
  -- Save program name for debugging.
  ask (.setProc { p with name := safestrcpy p.name (last path), pgdir := image.pgdir, sz := image.sz, tf := ⟨image.entry,image.sp⟩ })
  inMem (Vm.switchuvm image.pgdir)
  inMem (Vm.freevm p.pgdir)
  pure 0

def exec_locked (path : List UInt8) (argv : List (List UInt8)) (ip : Entry) : ExecProg Int := do
  let file ← ask (.contents ip)
  -- Check ELF header
  match Vm.readi file 0 Vm.SIZEOF_ELFHDR with
  | none => bad none (some ip)
  | some bytes =>
    if bytes.length < Vm.SIZEOF_ELFHDR then bad none (some ip)
    else do
      let elf := Vm.Elfhdr.ofBytes bytes
      if elf.magic ≠ Vm.ELF_MAGIC then bad none (some ip)
      else do
        let pgdir ← inMem Vm.setupkvm
        match pgdir with
        | none => bad none (some ip)
        | some pgdir => do
          -- Load program into memory.
          let loaded ← inMem (Vm.exec_load pgdir file elf.phnum elf.phoff 0)
          match loaded with
          | none => bad (some pgdir) (some ip)
          | some sz => do
            onFs (Sys.iunlockput ip)
            onFs (Sys.perform .end_op)
            let p ← ask .proc
            let image ← inMem (Vm.exec_stack p.pgdir pgdir sz elf.entry argv)
            match image with
            | none => bad (some pgdir) none
            | some image => commit path image

def exec (path : List UInt8) (argv : List (List UInt8)) : ExecProg Int := do
  onFs (Sys.perform .begin_op)
  let found ← onFs (Sys.namei path)
  match found with
  | none => do
    onFs (Sys.perform .end_op)
    pure (-1)
  | some ip => do
    onFs (Sys.ilock ip)
    exec_locked path argv ip

end Osce.Exec
