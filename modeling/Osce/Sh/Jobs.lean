import Osce.Sh.Grammar

/-!
The main loop of the shell: the list of jobs and how it is cleaned, the commands that the shell runs itself, and the start of a job.
A linked list is the list of its nodes, so a null pointer is the empty list, and following one is a fault.
-/
namespace Osce.Sh

def NOFILE : Nat := 16

inductive JobType where
  | foreground
  | background
  deriving DecidableEq

/-- A `struct job`, with what is known of each `jobprocess` from `headOfProcesses` on. -/
structure Job (α : Type) where
  id : UInt32
  processes : List α
  jobInFd : Nat
  type : JobType
  cmd : List UInt8

variable {α β : Type}

/-- The second loop of `clearZombieProcesses`: what comes after `prevProcess` in the end, where `passed` is between it and
    `currentProcess`. A process that is gone is unlinked, and the one after it is passed. -/
def clearRest (gone : α → Bool) : List α → List α → Except Err (List α)
  | passed, [] => .ok passed
  | passed, [p] => if gone p then .error .fault else .ok (passed ++ [p])
  | passed, p :: next :: rest =>
    if gone p then clearRest gone [next] rest
    else do
      let more ← clearRest gone [] (next :: rest)
      pure (passed ++ p :: more)

/-- `clearZombieProcesses`, where `gone` tells that `pstat` fails or gives `ZOMBIE`. -/
def clearZombieProcesses (gone : α → Bool) (processes : List α) : Except Err (List α) :=
  match processes.dropWhile gone with
  | [] => .ok []
  | head :: rest => do
    let more ← clearRest gone [] rest
    pure (head :: more)

def clearJobsRest (gone : α → Bool) : List (Job α) → List (Job α) → Except Err (List (Job α))
  | passed, [] => .ok passed
  | passed, [job] => do
    let processes ← clearZombieProcesses gone job.processes
    if processes.isEmpty then pure [] else pure (passed ++ [{ job with processes }])
  | passed, job :: next :: rest => do
    let processes ← clearZombieProcesses gone job.processes
    if processes.isEmpty then clearJobsRest gone [next] rest
    else do
      let more ← clearJobsRest gone [] (next :: rest)
      pure (passed ++ { job with processes } :: more)

def clearJobList (gone : α → Bool) : List (Job α) → Except Err (List (Job α))
  | [] => .ok []
  | job :: rest => do
    let processes ← clearZombieProcesses gone job.processes
    if processes.isEmpty then clearJobList gone rest
    else do
      let more ← clearJobsRest gone [] rest
      pure ({ job with processes } :: more)

def findForegroundJob (jobs : List (Job α)) : Option (Job α) := jobs.find? fun job => job.type = .foreground

def findJobById (jobs : List (Job α)) (id : UInt32) : Option (Job α) := jobs.find? fun job => job.id = id

/-- `type = FOREGROUND` for the first job that the test finds. -/
def foreground (test : Job α → Bool) : List (Job α) → List (Job α)
  | [] => []
  | job :: rest => if test job then { job with type := .foreground } :: rest else job :: foreground test rest

structure Shell where
  jobs : List (Job Int)
  jobCount : UInt32
  fds : Finset Nat

/-- What the rest of the system does in one iteration. -/
structure World where
  /-- What `pstat` tells of each process of each job. -/
  gone : Nat → Nat → Bool
  /-- The memory of the shell from the block that `malloc` gives for the text of the command. -/
  room : Nat
  forks : Bool
  /-- What the reads of `jobPids` return up to its end. -/
  reads : List (List UInt8)

/-- The lowest descriptor that is not open. -/
def fdalloc (fds : Finset Nat) : Option Nat := (List.range NOFILE).find? (· ∉ fds)

/-- The ends of a new pipe, and the descriptors that are then open. -/
def pipe (fds : Finset Nat) : Option (Nat × Nat × Finset Nat) := do
  let fd0 ← fdalloc fds
  let fd1 ← fdalloc (insert fd0 fds)
  pure (fd0,fd1,insert fd1 (insert fd0 fds))

def str (buf : List UInt8) : List UInt8 := buf.takeWhile (· ≠ 0)

def atoi (s : List UInt8) : UInt32 := (s.takeWhile fun c => 48 ≤ c ∧ c ≤ 57).foldl (fun n c => n * 10 + c.toUInt32 - 48) 0

def isCd (line : List UInt8) : Bool := line.take 3 == [99,100,32]
def isJobs (line : List UInt8) : Bool := line.take 4 == [106,111,98,115]
def isFgId (line : List UInt8) : Bool := line.take 3 == [102,103,32]
def isFg (line : List UInt8) : Bool := line.take 2 == [102,103]

/-- The number after `fg`, once the end of the line has been chopped. -/
def fgId (line : List UInt8) : UInt32 := atoi (line.dropLast.drop 3)

/-- The command is copied into a block of `strlen` bytes. -/
def getJob (id : UInt32) (inputFd : Nat) (line : List UInt8) (room : Nat) : Except Err (Job Int) :=
  if line.length < room then .ok ⟨id,[],inputFd,.foreground,line⟩ else .error .fault

/-- The memory of an `int`. -/
def intBytes (n : Nat) : List UInt8 := [UInt8.ofNat n,UInt8.ofNat (n / 2 ^ 8),UInt8.ofNat (n / 2 ^ 16),UInt8.ofNat (n / 2 ^ 24)]

/-- `(int)*pidBuf` -/
def recievedPid (bytes : List UInt8) : Int := (bytes.headD 0).toInt8.toInt

def addProcessToJob (job : Job Int) (pid : Int) : Job Int := { job with processes := pid :: job.processes }

def typeOf : Cmd → JobType
  | .back _ => .background
  | _ => .foreground

/-- From the first `pipe` on. The reads end when no process has `jobPids[1]` any more. -/
def startJob (w : World) (st : Shell) (line : List UInt8) : Except Err Shell := do
  let (pids0,pids1,fds) ← (pipe st.fds).elim (.error (.panic "jobPids error")) .ok
  let (in0,in1,fds) ← (pipe fds).elim (.error (.panic "jobInput error")) .ok
  let job ← getJob (st.jobCount + 1) in1 line w.room
  let (cmd,_) ← parsecmd line
  if w.forks then
    let job := w.reads.foldl (fun job bytes => addProcessToJob job (recievedPid bytes)) { job with type := typeOf cmd }
    pure ⟨job :: st.jobs,st.jobCount + 1,((fds.erase in0).erase pids1).erase pids0⟩
  else .error (.panic "fork")

def asked (gone : Nat → Nat → Bool) (jobs : List (Job Int)) : List (Job (Int × Bool)) :=
  jobs.mapIdx fun i job => ⟨job.id,job.processes.mapIdx fun k pid => (pid,gone i k),job.jobInFd,job.type,job.cmd⟩

def answered (jobs : List (Job (Int × Bool))) : List (Job Int) :=
  jobs.map fun job => ⟨job.id,job.processes.map Prod.fst,job.jobInFd,job.type,job.cmd⟩

/-- The body of the loop once the list has been cleaned. -/
def command (w : World) (st : Shell) (line : List UInt8) : Except Err Shell :=
  if (findForegroundJob st.jobs).isSome then .ok st
  else if isCd line then .ok st
  else if isJobs line then .ok st
  else if isFgId line then
    if (findJobById st.jobs (fgId line)).isSome then .ok { st with jobs := foreground (·.id = fgId line) st.jobs } else .error .fault
  else if isFg line then
    if st.jobs.isEmpty then .error .fault else .ok { st with jobs := foreground (fun _ => true) st.jobs }
  else startJob w st line

/-- One iteration of the loop of `main` for what `gets` has read, or the end of the loop. -/
def iteration (w : World) (st : Shell) (buf : List UInt8) : Except Err (Option Shell) :=
  if str buf = [] then .ok none
  else do
    let jobs ← clearJobList Prod.snd (asked w.gone st.jobs)
    let st ← command w { st with jobs := answered jobs } (str buf)
    pure (some st)

end Osce.Sh
