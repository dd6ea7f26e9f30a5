import Osce.Proc.Code
import Osce.Fs.Code

/-!
The system calls of `sysfile.c` and the parts of `file.c`, `pipe.c`, `proc.c`, `exec.c` and
`fs.c` that they use to hold files, inodes, pipes and names, as programs over the tables
of the kernel. Each operation is one section under a lock, or one access to what the
caller has to itself. There is one device, so that device numbers are left out. The
content of an inode is its list of directory entries; what a regular file holds is left
out, and so are the offset and the access mode of an open file, which no call here reads.
-/
namespace Osce.Sys
open Osce.Lib Osce.Layout
open Osce.Fs (namecmp strncpy)
open Osce.Procs (NPROC ProcState)

abbrev Proc := Fin NPROC
abbrev File := Fin NFILE
abbrev Entry := Fin NINODE
abbrev Fd := Fin NOFILE
abbrev Name := List UInt8

/-- The fields of an inode. `nlink` does not wrap: the disk has no room for that many
    entries. -/
@[ext] structure Inode where
  type : BitVec 16
  major : BitVec 16
  minor : BitVec 16
  nlink : Int
  entries : List Dirent
  deriving DecidableEq

/-- The type of an open file, with the pointer that belongs to it. -/
inductive FileKind where
  | FD_NONE
  | FD_PIPE (pipe : Nat) (writable : Bool)
  | FD_INODE (ip : Entry)
  deriving DecidableEq

inductive SysOp where
  | begin_op
  | end_op
  /-- What the rest of the kernel answers: whether memory is left, whether a file can be executed. -/
  | choose
  -- inodes
  | iget (inum : Nat)
  | idup (e : Entry)
  /-- The wait for `I_BUSY` in `ilock`, and what follows it. -/
  | lock (e : Entry)
  | load (e : Entry)
  | inum (e : Entry)
  | inode (e : Entry)
  | dirents (e : Entry)
  /-- Assignments to fields of a locked inode, and `iupdate`. -/
  | update (e : Entry) (f : Inode → Inode)
  /-- `writei` of one entry of a locked directory. -/
  | writeEntry (e : Entry) (slot : Nat) (de : Dirent)
  | unlock (e : Entry)
  /-- The first section of `iput`: whether the inode is to be freed. -/
  | putBegin (e : Entry)
  /-- `itrunc`, `ip->type = 0` and `iupdate`. -/
  | free (e : Entry)
  /-- The last section of `iput`, after the inode is freed. -/
  | putEnd (e : Entry)
  /-- One turn of the loop in `ialloc`: whether the inode was free. -/
  | claim (inum : Nat) (type : BitVec 16)
  -- files
  | filealloc
  | filedup (f : File)
  /-- The section of `fileclose`: the file, if this was the last reference. -/
  | closeFile (f : File)
  | setFile (f : File) (kind : FileKind)
  -- pipes
  | kalloc
  | kfree (pipe : Nat)
  /-- `p->readopen = 1` and `p->writeopen = 1`. -/
  | openPipe (pipe : Nat)
  /-- The section of `pipeclose`: whether both ends are closed. -/
  | closePipe (pipe : Nat) (writable : Bool)
  -- the process and its child
  | ofile (fd : Fd)
  | setOfile (fd : Fd) (f : Option File)
  | cwd
  | setCwd (ip : Option Entry)
  | isInit
  /-- The section of `allocproc`: the entry and its pid. -/
  | allocproc
  /-- `np->state = UNUSED` -/
  | unalloc (np : Proc)
  | setParent (np : Proc)
  | giveFile (np : Proc) (fd : Fd) (f : File)
  | giveCwd (np : Proc) (ip : Entry)
  /-- `np->state = RUNNABLE` -/
  | runnable (np : Proc)
  /-- `wait`: the pid of a child, or `none` for -1. -/
  | wait
  | panic (message : String)

@[reducible] def SysOp.Ans : SysOp → Type
  | .choose | .putBegin _ | .claim _ _ | .closePipe _ _ | .isInit | .writeEntry _ _ _ => Bool
  | .iget _ => Entry
  | .load _ | .inode _ => Inode
  | .dirents _ => List Dirent
  | .filealloc | .ofile _ => Option File
  | .closeFile _ => Option FileKind
  | .inum _ => Nat
  | .kalloc | .wait => Option Nat
  | .cwd => Option Entry
  | .allocproc => Option (Proc × Nat)
  | .panic _ => Empty
  | _ => Unit

abbrev SysSig : Sig := ⟨SysOp,SysOp.Ans⟩
abbrev SysProg := Prog SysSig

def perform (op : SysOp) : SysProg op.Ans := Prog.perform (S := SysSig) op
def panic {α : Type} (message : String) : SysProg α := .call (S := SysSig) (.panic message) Empty.elim

/-- Lock the given inode. Reads the inode from disk if necessary. -/
def ilock (e : Entry) : SysProg Unit := do
  perform (.lock e)
  let _ ← perform (.load e)
  pure ()

def iunlock (e : Entry) : SysProg Unit := perform (.unlock e)

/-- Drop a reference to an in-memory inode. -/
def iput (e : Entry) : SysProg Unit := do
  let free ← perform (.putBegin e)
  if free then do
    perform (.free e)
    perform (.putEnd e)
  else pure ()

def iunlockput (e : Entry) : SysProg Unit := do
  iunlock e
  iput e

def ialloc_from (type : BitVec 16) : List Nat → SysProg Entry
  | [] => panic "ialloc: no inodes"
  | inum :: rest => do
    let free ← perform (.claim inum type)
    if free then perform (.iget inum) else ialloc_from type rest

/-- The number of inodes that `mkfs` puts on a disk. -/
def ninodes : Nat := 200

def ialloc (type : BitVec 16) : SysProg Entry := ialloc_from type (List.range' 1 (ninodes - 1))

/-- Look for a name among the entries of a directory: the inode number and the slot. -/
def lookup (name : Name) (des : List Dirent) : Option (Nat × Nat) :=
  (des.zipIdx.find? fun x => x.1.inum ≠ 0 && namecmp name x.1.name).map fun x => (x.1.inum,x.2)

/-- Look for a directory entry in a directory: the inode and the slot of the entry. -/
def dirlookup (dp : Entry) (name : Name) : SysProg (Option (Entry × Nat)) := do
  let d ← perform (.inode dp)
  if d.type ≠ T_DIR then panic "dirlookup not DIR"
  else do
    let des ← perform (.dirents dp)
    match lookup name des with
    | some (inum,slot) => do
      let e ← perform (.iget inum)
      pure (some (e,slot))
    | none => pure none

/-- The first empty slot of a directory, or the one behind the last. -/
def emptySlot (des : List Dirent) : Nat := des.findIdx fun de => de.inum = 0

/-- Write a new directory entry (name, inum) into the directory dp; `false` for -1. -/
def dirlink (dp : Entry) (name : Name) (inum : Nat) : SysProg Bool := do
  -- Check that name is not present.
  let found ← dirlookup dp name
  match found with
  | some (ip,_) => do
    iput ip
    pure false
  | none => do
    let des ← perform (.dirents dp)
    let written ← perform (.writeEntry dp (emptySlot des) ⟨inum,strncpy name⟩)
    if written then pure true else panic "dirlink"

/-- Copy the next path element from path: the element and the path behind it. -/
def skipelem (path : List UInt8) : Option (Name × List UInt8) :=
  match path.dropWhile (· = 47) with
  | [] => none
  | c :: rest =>
    some (((c :: rest).takeWhile (· ≠ 47)).take DIRSIZ,((c :: rest).dropWhile (· ≠ 47)).dropWhile (· = 47))

/-- The elements of a path, which has fewer of them than bytes. -/
def elems_from : Nat → List UInt8 → List Name
  | 0, _ => []
  | turns + 1, path =>
    match skipelem path with
    | none => []
    | some (name,rest) => name :: elems_from turns rest

def elems (path : List UInt8) : List Name := elems_from path.length path

/-- The loop of `namex` over the elements of the path; `name` is the one cut off last. -/
def namex_from (nameiparent : Bool) : List Name → Name → Entry → SysProg (Option (Entry × Name))
  | [], name, ip =>
    if nameiparent then do
      iput ip
      pure none
    else pure (some (ip,name))
  | name :: path, _, ip => do
    ilock ip
    let d ← perform (.inode ip)
    if d.type ≠ T_DIR then do
      iunlockput ip
      pure none
    else if nameiparent = true ∧ path = [] then do
      -- Stop one level early.
      iunlock ip
      pure (some (ip,name))
    else do
      let found ← dirlookup ip name
      match found with
      | none => do
        iunlockput ip
        pure none
      | some (next,_) => do
        iunlockput ip
        namex_from nameiparent path name next

/-- Look up and return the inode for a path name, or the inode of its parent and the final
    path element. -/
def namex (path : List UInt8) (nameiparent : Bool) : SysProg (Option (Entry × Name)) := do
  if path.head? = some 47 then do
    let ip ← perform (.iget ROOTINO)
    namex_from nameiparent (elems path) [] ip
  else do
    let cwd ← perform .cwd
    match cwd with
    | some ip => do
      perform (.idup ip)
      namex_from nameiparent (elems path) [] ip
    | none => panic "trap"

def namei (path : List UInt8) : SysProg (Option Entry) := do
  let r ← namex path false
  pure (r.map (·.1))

def nameiparent (path : List UInt8) : SysProg (Option (Entry × Name)) := namex path true

def fdalloc_from (f : File) : List Fd → SysProg (Option Fd)
  | [] => pure none
  | fd :: rest => do
    let used ← perform (.ofile fd)
    if used = none then do
      perform (.setOfile fd (some f))
      pure (some fd)
    else fdalloc_from f rest

/-- Allocate a file descriptor for the given file; `none` for -1. -/
def fdalloc (f : File) : SysProg (Option Fd) := fdalloc_from f (List.finRange NOFILE)

def pipeclose (pipe : Nat) (writable : Bool) : SysProg Unit := do
  let closed ← perform (.closePipe pipe writable)
  if closed then perform (.kfree pipe) else pure ()

/-- Close file f. (Decrement ref count, close when reaches 0.) -/
def fileclose (f : File) : SysProg Unit := do
  let last ← perform (.closeFile f)
  match last with
  | some (.FD_PIPE pipe writable) => pipeclose pipe writable
  | some (.FD_INODE ip) => do
    perform .begin_op
    iput ip
    perform .end_op
  | some .FD_NONE => pure ()
  | none => pure ()

/-- `if(f) fileclose(f)` -/
def fileclose? (f : Option File) : SysProg Unit :=
  match f with
  | some f => fileclose f
  | none => pure ()

/-- What `pipealloc` does where an allocation fails. The page is the last thing it allocates,
    so that there is none to free. -/
def pipealloc_bad (f0 f1 : Option File) : SysProg (Option (File × File)) := do
  fileclose? f0
  fileclose? f1
  pure none

/-- The two ends of a new pipe. -/
def pipealloc : SysProg (Option (File × File)) := do
  let f0 ← perform .filealloc
  match f0 with
  | none => pipealloc_bad none none
  | some f0 => do
    let f1 ← perform .filealloc
    match f1 with
    | none => pipealloc_bad (some f0) none
    | some f1 => do
      let p ← perform .kalloc
      match p with
      | none => pipealloc_bad (some f0) (some f1)
      | some p => do
        perform (.openPipe p)
        perform (.setFile f0 (.FD_PIPE p false))
        perform (.setFile f1 (.FD_PIPE p true))
        pure (some (f0,f1))

/-! ## System calls

An argument that `argstr`, `argint` or `argptr` refuses is `none`. A call answers what it returns,
-1 for every failure. -/

/-- A descriptor inside the table. -/
def fdOf (fd : Int) : Option Fd := if inside : 0 ≤ fd ∧ fd < NOFILE then some ⟨fd.toNat,by omega⟩ else none

def argfd (fd : Option Int) : SysProg (Option (Fd × File)) := do
  match fd.bind fdOf with
  | none => pure none
  | some fd => do
    let f ← perform (.ofile fd)
    pure (f.map fun f => (fd,f))

def sys_dup (fd : Option Int) : SysProg Int := do
  let arg ← argfd fd
  match arg with
  | none => pure (-1)
  | some (_,f) => do
    let fd ← fdalloc f
    match fd with
    | none => pure (-1)
    | some fd => do
      perform (.filedup f)
      pure fd

def sys_close (fd : Option Int) : SysProg Int := do
  let arg ← argfd fd
  match arg with
  | none => pure (-1)
  | some (fd,f) => do
    perform (.setOfile fd none)
    fileclose f
    pure 0

/-- Where `sys_link` takes back the link it has counted. -/
def sys_link_bad (ip : Entry) : SysProg Int := do
  ilock ip
  perform (.update ip fun d => { d with nlink := d.nlink - 1 })
  iunlockput ip
  perform .end_op
  pure (-1)

/-- Create the path new as a link to the same inode as old. -/
def sys_link (args : Option (List UInt8 × List UInt8)) : SysProg Int := do
  match args with
  | none => pure (-1)
  | some (old,new) => do
    perform .begin_op
    let found ← namei old
    match found with
    | none => do
      perform .end_op
      pure (-1)
    | some ip => do
      ilock ip
      let d ← perform (.inode ip)
      if d.type = T_DIR then do
        iunlockput ip
        perform .end_op
        pure (-1)
      else do
        perform (.update ip fun d => { d with nlink := d.nlink + 1 })
        iunlock ip
        let parent ← nameiparent new
        match parent with
        | none => sys_link_bad ip
        | some (dp,name) => do
          ilock dp
          let inum ← perform (.inum ip)
          let linked ← dirlink dp name inum
          iunlockput dp
          if linked then do
            iput ip
            perform .end_op
            pure 0
          else sys_link_bad ip

/-- Is the directory empty except for "." and ".." ? -/
def isdirempty (des : List Dirent) : Bool := (des.drop 2).all fun de => de.inum = 0

/-- `memset(&de, 0, sizeof(de))` -/
def emptyDirent : Dirent := ⟨0,List.replicate DIRSIZ 0⟩

/-- "." and ".." -/
def dot : Name := [46]
def dotdot : Name := [46,46]

def sys_unlink_bad (dp : Entry) : SysProg Int := do
  iunlockput dp
  perform .end_op
  pure (-1)

/-- The end of `sys_unlink`, when the entry is gone. -/
def sys_unlink_last (dp ip : Entry) : SysProg Int := do
  iunlockput dp
  perform (.update ip fun d => { d with nlink := d.nlink - 1 })
  iunlockput ip
  perform .end_op
  pure 0

/-- `sys_unlink` from the lock of the inode whose entry it has found. -/
def sys_unlink_entry (dp ip : Entry) (slot : Nat) : SysProg Int := do
  ilock ip
  let d ← perform (.inode ip)
  if d.nlink < 1 then panic "unlink: nlink < 1"
  else if d.type = T_DIR then do
    let des ← perform (.dirents ip)
    if isdirempty des then do
      let written ← perform (.writeEntry dp slot emptyDirent)
      if written then do
        perform (.update dp fun d => { d with nlink := d.nlink - 1 })
        sys_unlink_last dp ip
      else panic "unlink: writei"
    else do
      iunlockput ip
      sys_unlink_bad dp
  else do
    let written ← perform (.writeEntry dp slot emptyDirent)
    if written then sys_unlink_last dp ip else panic "unlink: writei"

def sys_unlink (path : Option (List UInt8)) : SysProg Int := do
  match path with
  | none => pure (-1)
  | some path => do
    perform .begin_op
    let parent ← nameiparent path
    match parent with
    | none => do
      perform .end_op
      pure (-1)
    | some (dp,name) => do
      ilock dp
      -- Cannot unlink "." or "..".
      if namecmp name dot ∨ namecmp name dotdot then sys_unlink_bad dp
      else do
        let found ← dirlookup dp name
        match found with
        | none => sys_unlink_bad dp
        | some (ip,slot) => sys_unlink_entry dp ip slot

def create_dots (ip dp : Entry) : SysProg Unit := do
  let own ← perform (.inum ip)
  let done ← dirlink ip dot own
  if done then do
    let parent ← perform (.inum dp)
    let done ← dirlink ip dotdot parent
    if done then pure () else panic "create dots"
  else panic "create dots"

/-- The end of `create`: the new inode gets its name. -/
def create_link (dp ip : Entry) (name : Name) : SysProg (Option Entry) := do
  let inum ← perform (.inum ip)
  let done ← dirlink dp name inum
  if done then do
    iunlockput dp
    pure (some ip)
  else panic "create: dirlink"

def create (path : List UInt8) (type major minor : BitVec 16) : SysProg (Option Entry) := do
  let parent ← nameiparent path
  match parent with
  | none => pure none
  | some (dp,name) => do
    ilock dp
    let found ← dirlookup dp name
    match found with
    | some (ip,_) => do
      iunlockput dp
      ilock ip
      let d ← perform (.inode ip)
      if type = T_FILE ∧ d.type = T_FILE then pure (some ip)
      else do
        iunlockput ip
        pure none
    | none => do
      let ip ← ialloc type
      ilock ip
      perform (.update ip fun d => { d with major := major, minor := minor, nlink := 1 })
      if type = T_DIR then do -- Create . and .. entries.
        perform (.update dp fun d => { d with nlink := d.nlink + 1 }) -- for ".."
        create_dots ip dp
        create_link dp ip name
      else create_link dp ip name

def O_CREATE : BitVec 32 := 0x200

/-- The inode that `sys_open` opens, locked. -/
def open_inode (path : List UInt8) (omode : BitVec 32) : SysProg (Option Entry) := do
  if omode &&& O_CREATE ≠ 0 then create path T_FILE 0 0
  else do
    let found ← namei path
    match found with
    | none => pure none
    | some ip => do
      ilock ip
      let d ← perform (.inode ip)
      if d.type = T_DIR ∧ omode ≠ 0 then do
        iunlockput ip
        pure none
      else pure (some ip)

def sys_open (args : Option (List UInt8 × BitVec 32)) : SysProg Int := do
  match args with
  | none => pure (-1)
  | some (path,omode) => do
    perform .begin_op
    let found ← open_inode path omode
    match found with
    | none => do
      perform .end_op
      pure (-1)
    | some ip => do
      let f ← perform .filealloc
      match f with
      | none => do
        iunlockput ip
        perform .end_op
        pure (-1)
      | some f => do
        let fd ← fdalloc f
        match fd with
        | none => do
          fileclose f
          iunlockput ip
          perform .end_op
          pure (-1)
        | some fd => do
          iunlock ip
          perform .end_op
          perform (.setFile f (.FD_INODE ip))
          pure fd

/-- `sys_mkdir` and `sys_mknod` after their arguments. -/
def make (args : Option (List UInt8 × BitVec 16 × BitVec 16)) (type : BitVec 16) : SysProg Int := do
  perform .begin_op
  match args with
  | none => do
    perform .end_op
    pure (-1)
  | some (path,major,minor) => do
    let made ← create path type major minor
    match made with
    | none => do
      perform .end_op
      pure (-1)
    | some ip => do
      iunlockput ip
      perform .end_op
      pure 0

def sys_mkdir (path : Option (List UInt8)) : SysProg Int := make (path.map fun path => (path,0,0)) T_DIR

def sys_mknod (args : Option (List UInt8 × BitVec 16 × BitVec 16)) : SysProg Int := make args T_DEV

def sys_chdir (path : Option (List UInt8)) : SysProg Int := do
  perform .begin_op
  match path with
  | none => do
    perform .end_op
    pure (-1)
  | some path => do
    let found ← namei path
    match found with
    | none => do
      perform .end_op
      pure (-1)
    | some ip => do
      ilock ip
      let d ← perform (.inode ip)
      if d.type ≠ T_DIR then do
        iunlockput ip
        perform .end_op
        pure (-1)
      else do
        iunlock ip
        let old ← perform .cwd
        match old with
        | some old => do
          iput old
          perform .end_op
          perform (.setCwd (some ip))
          pure 0
        | none => panic "trap"

/-- `exec` reads and maps the file while it is locked; the address space is left out. -/
def exec (path : List UInt8) : SysProg Int := do
  perform .begin_op
  let found ← namei path
  match found with
  | none => do
    perform .end_op
    pure (-1)
  | some ip => do
    ilock ip
    let loaded ← perform .choose
    iunlockput ip
    perform .end_op
    if loaded then do
      -- the stack and the arguments
      let built ← perform .choose
      if built then pure 0 else pure (-1)
    else pure (-1)

def sys_exec (path : Option (List UInt8)) : SysProg Int := do
  match path with
  | none => pure (-1)
  | some path => exec path

def sys_pipe (args : Option Unit) : SysProg Int := do
  match args with
  | none => pure (-1)
  | some () => do
    let pair ← pipealloc
    match pair with
    | none => pure (-1)
    | some (rf,wf) => do
      let fd0 ← fdalloc rf
      match fd0 with
      | none => do
        fileclose rf
        fileclose wf
        pure (-1)
      | some fd0 => do
        let fd1 ← fdalloc wf
        match fd1 with
        | none => do
          perform (.setOfile fd0 none)
          fileclose rf
          fileclose wf
          pure (-1)
        | some _ => pure 0

/-- Look in the process table for an UNUSED proc, and allocate its kernel stack. -/
def allocproc : SysProg (Option (Proc × Nat)) := do
  let found ← perform .allocproc
  match found with
  | none => pure none
  | some (np,pid) => do
    let stack ← perform .choose
    if stack then pure (some (np,pid))
    else do
      perform (.unalloc np)
      pure none

def fork_files (np : Proc) : List Fd → SysProg Unit
  | [] => pure ()
  | fd :: rest => do
    let f ← perform (.ofile fd)
    match f with
    | some f => do
      perform (.filedup f)
      perform (.giveFile np fd f)
      fork_files np rest
    | none => fork_files np rest

/-- Create a new process copying p as the parent. -/
def fork : SysProg Int := do
  let child ← allocproc
  match child with
  | none => pure (-1)
  | some (np,pid) => do
    let copied ← perform .choose -- copyuvm
    if copied then do
      perform (.setParent np)
      fork_files np (List.finRange NOFILE)
      let cwd ← perform .cwd
      match cwd with
      | some ip => do
        perform (.idup ip)
        perform (.giveCwd np ip)
        perform (.runnable np)
        pure pid
      | none => panic "trap"
    else do
      perform (.unalloc np)
      pure (-1)

def exit_files : List Fd → SysProg Unit
  | [] => pure ()
  | fd :: rest => do
    let f ← perform (.ofile fd)
    match f with
    | some f => do
      fileclose f
      perform (.setOfile fd none)
      exit_files rest
    | none => exit_files rest

/-- `exit` up to its last section, in which the process becomes a zombie. -/
def exit : SysProg Unit := do
  let init ← perform .isInit
  if init then panic "init exiting"
  else do
    exit_files (List.finRange NOFILE)
    perform .begin_op
    let cwd ← perform .cwd
    match cwd with
    | some ip => do
      iput ip
      perform .end_op
      perform (.setCwd none)
    | none => panic "trap"

/-- `sys_wait`; the status that it stores is left out. -/
def sys_wait (args : Option Unit) : SysProg Int := do
  match args with
  | none => pure (-1)
  | some () => do
    let pid ← perform .wait
    match pid with
    | some pid => pure pid
    | none => pure (-1)

/-- The system calls. `exit` stands for a call of `sys_exit` whose argument is accepted. -/
inductive Call where
  | dup (fd : Option Int)
  | close (fd : Option Int)
  | link (args : Option (List UInt8 × List UInt8))
  | unlink (path : Option (List UInt8))
  | open (args : Option (List UInt8 × BitVec 32))
  | mkdir (path : Option (List UInt8))
  | mknod (args : Option (List UInt8 × BitVec 16 × BitVec 16))
  | chdir (path : Option (List UInt8))
  | exec (path : Option (List UInt8))
  | pipe (args : Option Unit)
  | fork
  | exit
  | wait (args : Option Unit)

def Call.code : Call → SysProg Int
  | .dup fd => sys_dup fd
  | .close fd => sys_close fd
  | .link args => sys_link args
  | .unlink path => sys_unlink path
  | .open args => sys_open args
  | .mkdir path => sys_mkdir path
  | .mknod args => sys_mknod args
  | .chdir path => sys_chdir path
  | .exec path => sys_exec path
  | .pipe args => sys_pipe args
  | .fork => Sys.fork
  | .exit => do
    Sys.exit
    pure 0
  | .wait args => sys_wait args

/-- The strings that a call gets from `argstr`. -/
def Call.paths : Call → List (List UInt8)
  | .link (some (old,new)) => [old,new]
  | .unlink (some path) | .mkdir (some path) | .chdir (some path) | .exec (some path) => [path]
  | .open (some (path,_)) | .mknod (some (path,_)) => [path]
  | _ => []

/-- They end in front of their first zero byte. -/
def Call.Clean (c : Call) : Prop := ∀ path ∈ c.paths, ∀ b ∈ path, b ≠ 0

instance (c : Call) : Decidable c.Clean := inferInstanceAs (Decidable (∀ path ∈ c.paths, ∀ b ∈ path, b ≠ 0))

end Osce.Sys
