import Osce.Lib.Prog
import Osce.Layout
import Osce.Proc.Code

/-!
The system calls that read or store memory of their caller: `argint`, `argptr` and `argfd`,
`sys_read` and `sys_write` down to the copies that `readi`, `writei`, the pipes and the
console make, and `sys_fstat`, `sys_pipe`, `sys_wait` and `sys_pstat` with the structures they
fill in. An address is the 32-bit value that the code computes. What the rest of the kernel
answers (the state of a pipe, the bytes of a block, the fields of an inode) is
any answer of an operation.
-/
namespace Osce.User
open Osce.Lib Osce.Layout
open Osce.Procs (NPROC ProcState)

/-- A register, an `int`, a `uint` or a pointer. -/
abbrev Word := BitVec 32

def KERNBASE : Nat := 0x80000000
/-- The major number of the console, the only device with functions in `devsw`. -/
def CONSOLE : BitVec 16 := 1

/-- The pointer of an open file. -/
inductive FileType where
  | FD_NONE
  | FD_PIPE
  | FD_INODE
  deriving DecidableEq

structure File where
  type : FileType
  readable : Bool
  writable : Bool
  deriving DecidableEq

/-- The fields of an inode that are read here. -/
structure Inode where
  inum : Nat
  type : BitVec 16
  major : BitVec 16
  nlink : BitVec 16
  size : Word

/-- The fields of an entry of `ptable.proc` that `pstat` reads. -/
structure Entry where
  pid : Word
  name : List UInt8
  state : ProcState
  sz : Word
  ofile : Fin NOFILE → Bool

inductive UserOp where
  -- the memory of the caller
  | load (a : Word)
  | store (a : Word) (b : UInt8)
  /-- `memmove` from an address, of `m` bytes. -/
  | loads (a : Word) (m : Nat)
  /-- `memmove` to an address, or the assignment of a field there. -/
  | stores (a : Word) (bytes : List UInt8)
  -- files and inodes
  | begin_op
  | end_op
  | off
  /-- `f->off += r` -/
  | advance (r : Word)
  | ilock
  | iunlock
  | inode
  | setSize (size : Nat)
  /-- `bread(bmap(ip, bn))` and `brelse` -/
  | bread (bn : Nat)
  /-- A changed block of the file, with `log_write` and `brelse`. -/
  | log_write (bn : Nat) (data : Block)
  -- pipes
  /-- The wait of `piperead` for data; `false` if the process is killed. -/
  | awaitData
  /-- The wait of `pipewrite` for room; `false` if the pipe is closed or the process killed. -/
  | awaitRoom
  | put (b : UInt8)
  /-- The next byte of the pipe, or `none` if it is empty. -/
  | get
  /-- `pipealloc` and the descriptors of its ends. -/
  | pipe
  -- the console
  /-- The next character of the input, or `none` if the process is killed. -/
  | input
  /-- `input.r--` -/
  | unread
  | consputc (b : UInt8)
  -- processes
  /-- The wait for a zombie child: its status and its pid, or `none` for -1. -/
  | zombie
  | proc (p : Fin NPROC)
  | panic (message : String)

@[reducible] def UserOp.Ans : UserOp → Type
  | .load _ => UInt8
  | .loads _ _ => List UInt8
  | .off => Word
  | .inode => Inode
  | .bread _ => Block
  | .awaitData | .awaitRoom => Bool
  | .get | .input => Option UInt8
  | .pipe => Option (Fin NOFILE × Fin NOFILE)
  | .zombie => Option (Word × Word)
  | .proc _ => Entry
  | .panic _ => Empty
  | _ => Unit

abbrev UserSig : Sig := ⟨UserOp,UserOp.Ans⟩
abbrev UserProg := Prog UserSig

def perform (op : UserOp) : UserProg op.Ans := Prog.perform (S := UserSig) op
def panic {α : Type} (message : String) : UserProg α := .call (S := UserSig) (.panic message) Empty.elim

/-- The calling process: `proc->sz`, the saved stack pointer, its memory and its open files. -/
structure Caller where
  sz : Nat
  esp : Word
  mem : Word → UInt8
  ofile : Fin NOFILE → Option File

def Caller.int (c : Caller) (a : Word) : Word :=
  BitVec.ofNat 32 (leNat [c.mem a,c.mem (a + 1),c.mem (a + 2),c.mem (a + 3)])

/-- Fetch the int at addr from the current process; `none` for -1. -/
def Caller.fetchint (c : Caller) (addr : Word) : Option Word :=
  if addr.toNat ≥ c.sz ∨ (addr + 4).toNat > c.sz then none else some (c.int addr)

/-- Fetch the nth 32-bit system call argument. -/
def Caller.argint (c : Caller) (n : Nat) : Option Word := c.fetchint (c.esp + 4 + BitVec.ofNat 32 (4 * n))

/-- Fetch the nth word-sized system call argument as a pointer to a block of memory of
    `size` bytes. Check that the pointer lies within the process address space. -/
def Caller.argptr (c : Caller) (n : Nat) (size : Word) : Option Word :=
  match c.argint n with
  | none => none
  | some i => if i.toNat ≥ c.sz ∨ (i + size).toNat > c.sz then none else some i

/-- Fetch the nth word-sized system call argument as a file descriptor. -/
def Caller.argfd (c : Caller) (n : Nat) : Option File :=
  match c.argint n with
  | none => none
  | some fd => if inside : fd.toInt < 0 ∨ fd.toInt ≥ NOFILE then none else c.ofile ⟨fd.toInt.toNat,by omega⟩

def count (n : Word) : Nat := n.toInt.toNat

/-- The second loop of `piperead`, with `i` bytes copied; the number of bytes. -/
def piperead_from (addr : Word) : Nat → Nat → UserProg Word
  | 0, i => pure (BitVec.ofNat 32 i)
  | turns + 1, i => do
    let b ← perform .get
    match b with
    | none => pure (BitVec.ofNat 32 i)
    | some b => do
      perform (.store (addr + BitVec.ofNat 32 i) b)
      piperead_from addr turns (i + 1)

def piperead (addr n : Word) : UserProg Word := do
  let ready ← perform .awaitData
  if ready then piperead_from addr (count n) 0 else pure (-1)

def pipewrite_from (addr n : Word) : Nat → Nat → UserProg Word
  | 0, _ => pure n
  | turns + 1, i => do
    let room ← perform .awaitRoom
    if room then do
      let b ← perform (.load (addr + BitVec.ofNat 32 i))
      perform (.put b)
      pipewrite_from addr n turns (i + 1)
    else pure (-1)

def pipewrite (addr n : Word) : UserProg Word := pipewrite_from addr n (count n) 0

/-- `C('D')` and the end of a line. -/
def CTRL_D : UInt8 := 4
def NEWLINE : UInt8 := 10

/-- The loop of `consoleread`, with `i` bytes stored. -/
def consoleread_from (dst : Word) : Nat → Nat → UserProg Word
  | 0, i => do
    perform .ilock
    pure (BitVec.ofNat 32 i)
  | turns + 1, i => do
    let c ← perform .input
    match c with
    | none => do
      perform .ilock
      pure (-1)
    | some c =>
      if c = CTRL_D then do -- EOF
        if 0 < i then do
          -- Save ^D for next time, to make sure caller gets a 0-byte result.
          perform .unread
          perform .ilock
          pure (BitVec.ofNat 32 i)
        else do
          perform .ilock
          pure (BitVec.ofNat 32 i)
      else do
        perform (.store (dst + BitVec.ofNat 32 i) c)
        if c = NEWLINE then do
          perform .ilock
          pure (BitVec.ofNat 32 (i + 1))
        else consoleread_from dst turns (i + 1)

def consoleread (dst n : Word) : UserProg Word := do
  perform .iunlock
  consoleread_from dst (count n) 0

def consolewrite_from (buf n : Word) : Nat → Nat → UserProg Word
  | 0, _ => do
    perform .ilock
    pure n
  | turns + 1, i => do
    let b ← perform (.load (buf + BitVec.ofNat 32 i))
    perform (.consputc b)
    consolewrite_from buf n turns (i + 1)

def consolewrite (buf n : Word) : UserProg Word := do
  perform .iunlock
  consolewrite_from buf n (count n) 0

/-- How many bytes of a request for `n` at `off` are in the first block of it. -/
def chunk (off n : Nat) : Nat := min n (BSIZE - off % BSIZE)

/-- The loop of `readi`; each turn reads at least one byte, so that `n` turns are enough. -/
def readi_from : Nat → Word → Nat → Nat → UserProg Unit
  | 0, _, _, _ => pure ()
  | turns + 1, dst, off, n =>
    if n = 0 then pure ()
    else do
      let bp ← perform (.bread (off / BSIZE))
      perform (.stores dst (bp.read (off % BSIZE) (chunk off n)))
      readi_from turns (dst + BitVec.ofNat 32 (chunk off n)) (off + chunk off n) (n - chunk off n)

def readi (dst off n : Word) : UserProg Word := do
  let ip ← perform .inode
  if ip.type = T_DEV then
    if ip.major = CONSOLE then consoleread dst n else pure (-1)
  else if off.toNat > ip.size.toNat ∨ (off + n).toNat < off.toNat then pure (-1)
  else do
    let n := if (off + n).toNat > ip.size.toNat then ip.size - off else n
    readi_from n.toNat dst off.toNat n.toNat
    pure n

def writei_from : Nat → Word → Nat → Nat → UserProg Nat
  | 0, _, off, _ => pure off
  | turns + 1, src, off, n =>
    if n = 0 then pure off
    else do
      let bp ← perform (.bread (off / BSIZE))
      let bytes ← perform (.loads src (chunk off n))
      perform (.log_write (off / BSIZE) (bp.write (off % BSIZE) bytes))
      writei_from turns (src + BitVec.ofNat 32 (chunk off n)) (off + chunk off n) (n - chunk off n)

def writei (src off n : Word) : UserProg Word := do
  let ip ← perform .inode
  if ip.type = T_DEV then
    if ip.major = CONSOLE then consolewrite src n else pure (-1)
  else if off.toNat > ip.size.toNat ∨ (off + n).toNat < off.toNat then pure (-1)
  else if (off + n).toNat > MAXFILE * BSIZE then pure (-1)
  else do
    let last ← writei_from n.toNat src off.toNat n.toNat
    if 0 < n.toNat ∧ last > ip.size.toNat then do
      perform (.setSize last)
      pure n
    else pure n

/-- `if(r > 0) f->off += r` -/
def advance (r : Word) : UserProg Unit := if 0 < r.toInt then perform (.advance r) else pure ()

def fileread (f : File) (addr n : Word) : UserProg Word := do
  if f.readable = false then pure (-1)
  else
    match f.type with
    | .FD_PIPE => piperead addr n
    | .FD_INODE => do
      perform .ilock
      let off ← perform .off
      let r ← readi addr off n
      advance r
      perform .iunlock
      pure r
    | .FD_NONE => panic "fileread"

/-- The bytes of one transaction of `filewrite`. -/
def max : Nat := ((LOGSIZE - 1 - 1 - 2) / 2) * 512

/-- The loop of `filewrite`; each turn but the last writes at least one byte, so that `n` turns
    are enough. -/
def filewrite_from (addr n : Word) : Nat → Nat → UserProg Word
  | 0, i => pure (if BitVec.ofNat 32 i = n then n else -1)
  | turns + 1, i =>
    if i < count n then do
      let n1 := BitVec.ofNat 32 (min (count n - i) max)
      perform .begin_op
      perform .ilock
      let off ← perform .off
      let r ← writei (addr + BitVec.ofNat 32 i) off n1
      advance r
      perform .iunlock
      perform .end_op
      if r.toInt < 0 then pure (if BitVec.ofNat 32 i = n then n else -1)
      else if r ≠ n1 then panic "short filewrite"
      else filewrite_from addr n turns (i + r.toNat)
    else pure (if BitVec.ofNat 32 i = n then n else -1)

def filewrite (f : File) (addr n : Word) : UserProg Word := do
  if f.writable = false then pure (-1)
  else
    match f.type with
    | .FD_PIPE => pipewrite addr n
    | .FD_INODE => filewrite_from addr n (count n) 0
    | .FD_NONE => panic "filewrite"

def sys_read (c : Caller) : UserProg Word := do
  match c.argfd 0, c.argint 2 with
  | some f, some n =>
    match c.argptr 1 n with
    | some p => fileread f p n
    | none => pure (-1)
  | _, _ => pure (-1)

def sys_write (c : Caller) : UserProg Word := do
  match c.argfd 0, c.argint 2 with
  | some f, some n =>
    match c.argptr 1 n with
    | some p => filewrite f p n
    | none => pure (-1)
  | _, _ => pure (-1)

/-- `sizeof(struct stat)` and `sizeof(struct procstat)`; `short`s are followed by two bytes that
    belong to no field. -/
def SIZEOF_STAT : Nat := 20
def SIZEOF_PROCSTAT : Nat := 28
/-- The size of a pointer and of an `int`. -/
def SIZEOF_POINTER : Nat := 4

def setField (q : Word) (offset size value : Nat) : UserProg Unit :=
  perform (.stores (q + BitVec.ofNat 32 offset) (leBytes size value))

def stati (ip : Inode) (st : Word) : UserProg Unit := do
  setField st 4 4 ROOTDEV
  setField st 8 4 ip.inum
  setField st 0 2 ip.type.toNat
  setField st 12 2 ip.nlink.toNat
  setField st 16 4 ip.size.toNat

def filestat (f : File) (st : Word) : UserProg Word := do
  if f.type = .FD_INODE then do
    perform .ilock
    let ip ← perform .inode
    stati ip st
    perform .iunlock
    pure 0
  else pure (-1)

def sys_fstat (c : Caller) : UserProg Word := do
  match c.argfd 0, c.argptr 1 (BitVec.ofNat 32 SIZEOF_STAT) with
  | some f, some st => filestat f st
  | _, _ => pure (-1)

def sys_pipe (c : Caller) : UserProg Word := do
  match c.argptr 0 (BitVec.ofNat 32 (2 * 4)) with
  | none => pure (-1)
  | some fd => do
    let pair ← perform .pipe
    match pair with
    | none => pure (-1)
    | some (fd0,fd1) => do
      setField fd 0 4 fd0
      setField fd 4 4 fd1
      pure 0

/-- Wait for a child process to exit and return its pid. -/
def wait (status : Word) : UserProg Word := do
  let child ← perform .zombie
  match child with
  | none => pure (-1)
  | some (value,pid) =>
    if status ≠ 0 then do
      setField status 0 4 value.toNat
      pure pid
    else pure pid

def sys_wait (c : Caller) : UserProg Word := do
  match c.argptr 0 (BitVec.ofNat 32 SIZEOF_POINTER) with
  | none => pure (-1)
  | some status => wait status

/-- The number of a state in `enum procstate`. -/
def stateNumber : ProcState → Nat
  | .UNUSED => 0
  | .EMBRYO => 1
  | .SLEEPING => 2
  | .RUNNABLE => 3
  | .RUNNING => 4
  | .ZOMBIE => 5

def pstat_name (stat : Word) (name : List UInt8) : List Nat → UserProg Unit
  | [] => pure ()
  | i :: rest => do
    setField stat i 1 (name.getD i 0).toNat
    pstat_name stat name rest

def pstat_from (pid stat : Word) : List (Fin NPROC) → UserProg Word
  | [] => pure (-1)
  | i :: rest => do
    let p ← perform (.proc i)
    if p.pid = pid then do
      pstat_name stat p.name (List.range 16)
      setField stat 24 4 (stateNumber p.state)
      setField stat 16 4 p.sz.toNat
      setField stat 20 4 ((List.finRange NOFILE).countP p.ofile)
      pure 0
    else pstat_from pid stat rest

def pstat (pid stat : Word) : UserProg Word := pstat_from pid stat (List.finRange NPROC)

/-- `sizeof(stat)` is the size of the pointer. -/
def sys_pstat (c : Caller) : UserProg Word := do
  match c.argint 0, c.argptr 1 (BitVec.ofNat 32 SIZEOF_POINTER) with
  | some pid, some stat => pstat pid stat
  | _, _ => pure (-1)

/-- What the calls find in the kernel: the inode and the offset of an open file, and the process table. -/
structure Kernel where
  inode : Inode
  off : Word
  ptable : Fin NPROC → Entry

/-- The answers that the calls can get from the kernel. -/
def Kernel.Answers (k : Kernel) : (op : UserOp) → op.Ans → Prop
  | .inode, ip => ip = k.inode
  | .off, off => off = k.off
  | .proc p, entry => entry = k.ptable p
  | _, _ => True

/-- The operation reads or stores the byte at an address of the caller. -/
def UserOp.Touches (op : UserOp) (a : Nat) : Prop :=
  match op with
  | .load b | .store b _ => a = b.toNat
  | .loads b m => ∃ i < m, a = (b + BitVec.ofNat 32 i).toNat
  | .stores b bytes => ∃ i < bytes.length, a = (b + BitVec.ofNat 32 i).toNat
  | _ => False

end Osce.User
