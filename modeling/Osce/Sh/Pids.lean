import Osce.Sh.Jobs

/-!
How the shell learns the pids of a job: the processes of `runcmd` for a tree of commands, each with what it has yet to do, the pipe `jobPids`,
and the loop of the shell that reads from it. The steps of the processes and of the shell come in any order.
-/
namespace Osce.Sh.Pids
open List

def PIPESIZE : Nat := 512

inductive Task where
  /-- It is at the beginning of `runcmd`. -/
  | run (t : Tree)
  /-- The child of `EXEC`, before it looks at `argv[0]`. -/
  | child (argv : List (List UInt8))
  /-- It writes its pid next. -/
  | tell
  /-- It closes the pipe and calls `exec`. -/
  | told
  | program
  /-- It waits for the left command of a list, then runs the right one. -/
  | list (right : Tree)
  /-- It has forked the left command of a pipe. -/
  | pipe (right : Tree)
  /-- It closes the pipe and waits for so many children. -/
  | closing (n : Nat)
  | waiting (n : Nat)
  | zombie

/-- Whether the process has the end of the pipe that it can write to. -/
def Task.holds : Task → Bool
  | .run _ => true
  | .child _ => true
  | .tell => true
  | .told => true
  | .list _ => true
  | .pipe _ => true
  | .closing _ => true
  | .program => false
  | .waiting _ => false
  | .zombie => false

/-- Where a process forks next: what it does then itself, and what the child does. -/
def Task.fork : Task → Option (Task × Task)
  | .run (.exec argv) => some (.closing 1,.child argv)
  | .run (.list left right) => some (.list right,.run left)
  | .run (.pipe left right) => some (.pipe right,.run left)
  | .pipe right => some (.closing 2,.run right)
  | _ => none

/-- A step that is nobody else's business. A program that was started ends at some time, also if `exec` failed. -/
def Task.next : Task → Option Task
  | .run (.redir t _) => some (.run t)
  | .run (.back t) => some (.run t)
  | .child [] => some .zombie
  | .child (_ :: _) => some .tell
  | .told => some .program
  | .closing n => some (.waiting n)
  | .waiting 0 => some .zombie
  | .program => some .zombie
  | _ => none

/-- A `fork`, `open` or `pipe` that can fail, after which the process exits. -/
def Task.fails : Task → Bool
  | .run (.back _) => false
  | .run _ => true
  | .pipe _ => true
  | _ => false

/-- A `wait` that returns. -/
def Task.reap : Task → Option Task
  | .list right => some (.run right)
  | .waiting (n + 1) => some (.waiting n)
  | _ => none

/-- A process that was forked for a simple command and has yet to write its pid. -/
def Task.owes : Task → Bool
  | .child (_ :: _) => true
  | .tell => true
  | _ => false

structure Process where
  parent : Nat
  task : Task

structure State where
  procs : Nat → Option Process
  nextpid : Nat
  /-- The bytes in `jobPids`. -/
  pipe : List UInt8
  /-- The pids in the list of the job, the last one first. -/
  registered : List Int
  /-- The shell has left its loop. -/
  ended : Bool
  /-- The processes that were forked for a simple command so far. -/
  simple : List Nat

/-- What `runcmd` writes for its pid: the bytes of the number up to a zero. -/
def pidBytes (pid : Nat) : List UInt8 := (intBytes pid).takeWhile (· ≠ 0)

inductive Move where
  | forks (pid fresh : Nat)
  | fails (pid : Nat)
  | goes (pid : Nat)
  | writes (pid : Nat)
  /-- A process waits for a child that has exited. -/
  | reaps (pid child : Nat)
  /-- The shell reads up to four bytes. -/
  | reads
  /-- The shell finds the pipe empty with nobody to write to it. -/
  | ends
deriving DecidableEq

def State.become (st : State) (pid : Nat) (p : Process) (task : Task) : State :=
  { st with procs := Function.update st.procs pid (some { p with task }) }

def State.spawn (st : State) (fresh : Nat) (child : Process) : State :=
  { st with
    procs := Function.update st.procs fresh (some child)
    nextpid := fresh + 1
    simple := if child.task.owes then fresh :: st.simple else st.simple }

def step (st : State) : Move → Option State
  | .forks pid fresh => do
    let p ← st.procs pid
    let (task,child) ← p.task.fork
    guard (st.nextpid ≤ fresh)
    pure ((st.become pid p task).spawn fresh ⟨pid,child⟩)
  | .fails pid => do
    let p ← st.procs pid
    guard p.task.fails
    pure (st.become pid p .zombie)
  | .goes pid => do
    let p ← st.procs pid
    let task ← p.task.next
    pure (st.become pid p task)
  | .writes pid => do
    let p ← st.procs pid
    match p.task with
    | .tell =>
      guard (st.pipe.length + (pidBytes pid).length ≤ PIPESIZE)
      pure { st.become pid p .told with pipe := st.pipe ++ pidBytes pid }
    | _ => none
  | .reaps pid child => do
    let p ← st.procs pid
    let task ← p.task.reap
    let c ← st.procs child
    guard (c.parent = pid)
    match c.task with
    | .zombie =>
      let st' := st.become pid p task
      pure { st' with procs := Function.update st'.procs child none }
    | _ => none
  | .reads =>
    if st.ended ∨ st.pipe = [] then none
    else some { st with pipe := st.pipe.drop 4, registered := recievedPid (st.pipe.take 4) :: st.registered }
  | .ends =>
    if st.pipe = [] ∧ ∀ pid < st.nextpid, (st.procs pid).any (·.task.holds) = false then some { st with ended := true } else none

/-- The shell has forked a process for the command and begins to read. -/
def begin (t : Tree) (pid : Nat) : State :=
  ⟨fun q => if q = pid then some ⟨0,.run t⟩ else none,pid + 1,[],[],false,[]⟩

def run : State → List Move → Option State
  | st, [] => some st
  | st, m :: rest => do run (← step st m) rest

def Single : State → List Move → Prop
  | _, [] => True
  | st, m :: rest => (m = .reads → st.pipe.length = 1) ∧ ∀ st', step st m = some st' → Single st' rest

instance decidableSingle : (st : State) → (moves : List Move) → Decidable (Single st moves)
  | _, [] => isTrue trivial
  | st, m :: rest =>
    match stepped : step st m with
    | none => decidable_of_iff (m = .reads → st.pipe.length = 1) (by simp [Single,stepped])
    | some st' =>
      have := decidableSingle st' rest
      decidable_of_iff ((m = .reads → st.pipe.length = 1) ∧ Single st' rest) (by simp [Single,stepped])

variable {st st' : State} {lost : List Int} {pid : Nat} {p : Process}

def State.owing (st : State) (pid : Nat) : Bool := (st.procs pid).any (·.task.owes)

def State.written (st : State) : List Nat := st.simple.filter fun pid => !st.owing pid

def decode (c : UInt8) : Int := recievedPid [c]

structure Inv (st : State) (lost : List Int) : Prop where
  below : ∀ pid p, st.procs pid = some p → pid < st.nextpid
  known : ∀ pid ∈ st.simple, pid < st.nextpid
  distinct : st.simple.Nodup
  owed : ∀ pid, st.owing pid = true → pid ∈ st.simple
  told : (st.registered ++ (st.pipe.map decode ++ lost)).Perm (st.written.map Int.ofNat)

theorem begin_inv (t : Tree) (pid : Nat) : Inv (begin t pid) [] := by
  refine ⟨?_,by simp [begin],by simp [begin],?_,by simp [begin,State.written]⟩
  · intro q p found
    simp only [begin] at found ⊢
    split at found
    · omega
    · cases found
  · intro q owing
    simp only [State.owing,begin] at owing
    split at owing <;> cases owing

theorem owing_become (found : st.procs pid = some p) {task : Task} (same : task.owes = p.task.owes) : (st.become pid p task).owing = st.owing := by
  funext q
  rw [State.owing,State.owing,State.become]
  by_cases here : q = pid
  · subst here
    simp [found,same]
  · simp [here]

theorem Inv.become (inv : Inv st lost) (found : st.procs pid = some p) {task : Task} (same : task.owes = p.task.owes) :
    Inv (st.become pid p task) lost := by
  have owing := owing_become found same
  refine ⟨?_,inv.known,inv.distinct,by rw [owing]; exact inv.owed,by rw [State.written,owing]; exact inv.told⟩
  intro q p' found'
  rw [State.become] at found'
  by_cases here : q = pid
  · exact here ▸ inv.below pid p found
  · exact inv.below q p' (by simpa [here] using found')

theorem next_owes {task task' : Task} (next : task.next = some task') : task'.owes = task.owes := by
  unfold Task.next at next
  split at next <;> cases next <;> rfl

theorem fork_owes {task task' child : Task} (fork : task.fork = some (task',child)) : task'.owes = task.owes := by
  unfold Task.fork at fork
  split at fork <;> cases fork <;> rfl

theorem reap_owes {task task' : Task} (reap : task.reap = some task') : task'.owes = task.owes := by
  unfold Task.reap at reap
  split at reap <;> cases reap <;> rfl

theorem fails_owes {task : Task} (fails : task.fails = true) : Task.zombie.owes = task.owes := by
  cases task <;> first | rfl | cases fails

theorem owing_spawn (fresh : Nat) (child : Process) {q : Nat} (other : q ≠ fresh) : (st.spawn fresh child).owing q = st.owing q := by
  simp [State.owing,State.spawn,other]

theorem written_spawn {fresh : Nat} (unknown : fresh ∉ st.simple) (child : Process) : (st.spawn fresh child).written = st.written := by
  have others : st.simple.filter (fun pid => !(st.spawn fresh child).owing pid) = st.written :=
    filter_congr fun q mem => by rw [owing_spawn fresh child (by rintro rfl; exact unknown mem)]
  rw [State.written]
  cases owes : child.task.owes with
  | false => simpa [State.spawn,owes] using others
  | true =>
    have owing : (st.spawn fresh child).owing fresh = true := by simp [State.owing,State.spawn,owes]
    have simple : (st.spawn fresh child).simple = fresh :: st.simple := by simp [State.spawn,owes]
    rw [simple,filter_cons,owing]
    exact others

theorem Inv.spawn (inv : Inv st lost) {fresh : Nat} (new : st.nextpid ≤ fresh) (child : Process) : Inv (st.spawn fresh child) lost := by
  have unknown : fresh ∉ st.simple := fun mem => by have := inv.known fresh mem; omega
  have simple : ∀ q ∈ (st.spawn fresh child).simple, q = fresh ∧ child.task.owes = true ∨ q ∈ st.simple := by
    intro q mem
    cases owes : child.task.owes <;> simp_all [State.spawn]
  refine ⟨?_,?_,?_,?_,?_⟩
  · intro q p found
    by_cases here : q = fresh
    · exact here ▸ Nat.lt_succ_self _
    · have := inv.below q p (by simpa [State.spawn,here] using found)
      exact Nat.lt_succ_of_lt (by omega)
  · intro q mem
    obtain ⟨rfl,-⟩ | old := simple q mem
    · exact Nat.lt_succ_self _
    · have := inv.known q old
      exact Nat.lt_succ_of_lt (by omega)
  · cases owes : child.task.owes <;> simp [State.spawn,owes,inv.distinct,unknown]
  · intro q owing
    by_cases here : q = fresh
    · subst here
      have owes : child.task.owes = true := by simpa [State.owing,State.spawn] using owing
      simp [State.spawn,owes]
    · have old := inv.owed q (by rwa [owing_spawn fresh child here] at owing)
      cases owes : child.task.owes <;> simp [State.spawn,owes,old]
  · rw [written_spawn unknown]
    exact inv.told

theorem Inv.remove (inv : Inv st lost) (found : st.procs pid = some p) (exited : p.task.owes = false) :
    Inv { st with procs := Function.update st.procs pid none } lost := by
  have owing : State.owing { st with procs := Function.update st.procs pid none } = st.owing := by
    funext q
    by_cases here : q = pid
    · subst here
      simp [State.owing,found,exited]
    · simp [State.owing,here]
  refine ⟨?_,inv.known,inv.distinct,by rw [owing]; exact inv.owed,by rw [State.written,owing]; exact inv.told⟩
  intro q p' found'
  by_cases here : q = pid
  · simp [here] at found'
  · exact inv.below q p' (by simpa [here] using found')

theorem pidBytes_small : ∀ pid < 128, 0 < pid → pidBytes pid = [UInt8.ofNat pid] := by decide

theorem decode_small : ∀ pid < 128, decode (UInt8.ofNat pid) = Int.ofNat pid := by decide

theorem Inv.write (inv : Inv st lost) (found : st.procs pid = some p) (tell : p.task = .tell) (small : 1 ≤ pid ∧ pid ≤ 127) :
    Inv { st.become pid p .told with pipe := st.pipe ++ pidBytes pid } lost := by
  have owes : st.owing pid = true := by simp [State.owing,found,tell,Task.owes]
  have owing (q : Nat) : (st.become pid p .told).owing q = (st.owing q && decide (q ≠ pid)) := by
    by_cases here : q = pid
    · simp [State.owing,State.become,here,Task.owes]
    · simp [State.owing,State.become,here]
  have written : (st.become pid p .told).written.Perm (pid :: st.written) := by
    refine (perm_ext_iff_of_nodup (inv.distinct.filter _) (nodup_cons.mpr ⟨?_,inv.distinct.filter _⟩)).mpr fun q => ?_
    · simp [owes]
    · have mem := inv.owed pid owes
      simp only [mem_filter,mem_cons,owing,Bool.not_and,Bool.or_eq_true]
      by_cases here : q = pid
      · simpa [here] using mem
      · simp [here]
  refine ⟨?_,inv.known,inv.distinct,fun q owed => inv.owed q (Bool.and_eq_true_iff.mp ((owing q).symm.trans owed)).1,?_⟩
  · intro q p' found'
    by_cases here : q = pid
    · exact here ▸ inv.below pid p found
    · exact inv.below q p' (by simpa [State.become,here] using found')
  · have byte : (pidBytes pid).map decode = [Int.ofNat pid] := by
      rw [pidBytes_small pid (by omega) (by omega),map_singleton,decode_small pid (by omega)]
    refine List.Perm.trans ?_ (written.map Int.ofNat).symm
    rw [map_append,byte,map_cons]
    refine List.Perm.trans ?_ (inv.told.cons (Int.ofNat pid))
    simp only [append_assoc,singleton_append,State.become]
    exact (List.Perm.append_left _ perm_middle).trans perm_middle

/-- The shell reads: the first byte comes into the list, and up to three others are lost. -/
theorem Inv.read (inv : Inv st lost) (some : st.pipe ≠ []) :
    Inv { st with pipe := st.pipe.drop 4, registered := recievedPid (st.pipe.take 4) :: st.registered }
      (((st.pipe.take 4).drop 1).map decode ++ lost) := by
  refine ⟨inv.below,inv.known,inv.distinct,inv.owed,List.Perm.trans ?_ inv.told⟩
  obtain ⟨c,rest,pipe⟩ := exists_cons_of_ne_nil some
  have first : recievedPid (c :: rest.take 3) = decode c := rfl
  simp only [pipe,take_succ_cons,drop_succ_cons,drop_zero,map_cons,cons_append,first]
  refine List.Perm.trans (List.Perm.cons _ (List.Perm.append_left _ ?_)) perm_middle.symm
  rw [← append_assoc,← map_append]
  refine List.Perm.append_right _ (List.Perm.map _ ?_)
  exact perm_append_comm.trans (by rw [take_append_drop])

theorem read_loses (some : st.pipe ≠ []) :
    (((st.pipe.take 4).drop 1).map decode ++ lost).length = lost.length ↔ st.pipe.length = 1 := by
  have long := length_pos_iff.mpr some
  simp
  omega

inductive Effect (st : State) : Move → State → Prop where
  | forks {pid fresh : Nat} {p : Process} {task child : Task} (found : st.procs pid = some p) (fork : p.task.fork = some (task,child))
      (new : st.nextpid ≤ fresh) : Effect st (.forks pid fresh) ((st.become pid p task).spawn fresh ⟨pid,child⟩)
  | fails {pid : Nat} {p : Process} (found : st.procs pid = some p) (fails : p.task.fails = true) : Effect st (.fails pid) (st.become pid p .zombie)
  | goes {pid : Nat} {p : Process} {task : Task} (found : st.procs pid = some p) (next : p.task.next = some task) :
      Effect st (.goes pid) (st.become pid p task)
  | writes {pid : Nat} {p : Process} (found : st.procs pid = some p) (tell : p.task = .tell) :
      Effect st (.writes pid) { st.become pid p .told with pipe := st.pipe ++ pidBytes pid }
  | reaps {pid child : Nat} {p c : Process} {task : Task} (found : st.procs pid = some p) (reap : p.task.reap = some task)
      (exited : (st.become pid p task).procs child = some c) (zombie : c.task = .zombie) :
      Effect st (.reaps pid child) { st.become pid p task with procs := Function.update (st.become pid p task).procs child none }
  | reads (running : st.ended = false) (some : st.pipe ≠ []) :
      Effect st .reads { st with pipe := st.pipe.drop 4, registered := recievedPid (st.pipe.take 4) :: st.registered }
  | ends (none : st.pipe = []) (closed : ∀ pid < st.nextpid, (st.procs pid).any (·.task.holds) = false) : Effect st .ends { st with ended := true }

theorem step_effect {m : Move} (next : step st m = some st') : Effect st m st' := by
  cases m with
  | forks pid fresh =>
    simp only [step,Option.bind_eq_bind,Option.bind_eq_some_iff,Option.pure_def,Option.some.injEq] at next
    obtain ⟨p,found,⟨task,child⟩,fork,_,new,rfl⟩ := next
    exact .forks found fork (by simpa [guard] using new)
  | fails pid =>
    simp only [step,Option.bind_eq_bind,Option.bind_eq_some_iff,Option.pure_def,Option.some.injEq] at next
    obtain ⟨p,found,_,fails,rfl⟩ := next
    exact .fails found (by simpa [guard] using fails)
  | goes pid =>
    simp only [step,Option.bind_eq_bind,Option.bind_eq_some_iff,Option.pure_def,Option.some.injEq] at next
    obtain ⟨p,found,task,goes,rfl⟩ := next
    exact .goes found goes
  | writes pid =>
    simp only [step,Option.bind_eq_bind,Option.bind_eq_some_iff] at next
    obtain ⟨p,found,next⟩ := next
    split at next
    next tell =>
      simp only [Option.bind_eq_some_iff,Option.pure_def,Option.some.injEq] at next
      obtain ⟨_,_,rfl⟩ := next
      exact .writes found tell
    next => cases next
  | reaps pid child =>
    simp only [step,Option.bind_eq_bind,Option.bind_eq_some_iff] at next
    obtain ⟨p,found,task,reap,c,exited,_,_,next⟩ := next
    split at next
    next zombie =>
      cases next
      have other : child ≠ pid := by
        rintro rfl
        rw [found] at exited
        cases exited
        rw [zombie] at reap
        cases reap
      exact .reaps found reap (by simp [State.become,other,exited]) zombie
    next => cases next
  | reads =>
    rw [step] at next
    split at next
    · cases next
    next going =>
      cases next
      push Not at going
      exact .reads (Bool.not_eq_true _ ▸ going.1) going.2
  | ends =>
    rw [step] at next
    split at next
    next closed =>
      cases next
      exact .ends closed.1 closed.2
    · cases next

theorem Inv.step {m : Move} (inv : Inv st lost) (small : ∀ pid ∈ st.simple, 1 ≤ pid ∧ pid ≤ 127) (next : Effect st m st') :
    ∃ lost', Inv st' lost' ∧ lost.length ≤ lost'.length ∧ (lost'.length = lost.length ↔ (m = .reads → st.pipe.length = 1)) := by
  cases next with
  | forks found fork new => exact ⟨lost,(inv.become found (fork_owes fork)).spawn new _,le_rfl,by simp⟩
  | fails found fails => exact ⟨lost,inv.become found (fails_owes fails),le_rfl,by simp⟩
  | goes found next => exact ⟨lost,inv.become found (next_owes next),le_rfl,by simp⟩
  | @writes pid p found tell =>
    have mem : pid ∈ st.simple := inv.owed pid (by simp [State.owing,found,tell,Task.owes])
    exact ⟨lost,inv.write found tell (small pid mem),le_rfl,by simp⟩
  | reaps found reap exited zombie =>
    exact ⟨lost,(inv.become found (reap_owes reap)).remove exited (by rw [zombie]; rfl),le_rfl,by simp⟩
  | reads running some => exact ⟨_,inv.read some,by simp,by rw [read_loses some]; simp⟩
  | ends none closed => exact ⟨lost,⟨inv.below,inv.known,inv.distinct,inv.owed,inv.told⟩,le_rfl,by simp⟩

theorem effect_simple {m : Move} (next : Effect st m st') : st.simple ⊆ st'.simple := by
  cases next with
  | @forks pid fresh p task child found fork new =>
    intro q mem
    cases owes : child.owes <;> simp [State.spawn,State.become,owes,mem]
  | _ => exact List.Subset.refl _

/-- A shell that has left its loop has read everything, and nobody can write any more. -/
def Settled (st : State) : Prop := st.ended = true → st.pipe = [] ∧ ∀ pid p, st.procs pid = some p → p.task.holds = false

theorem next_holds {task task' : Task} (next : task.next = some task') (none : task.holds = false) : task'.holds = false := by
  unfold Task.next at next
  split at next <;> cases next <;> first | rfl | cases none

theorem reap_holds {task task' : Task} (reap : task.reap = some task') (none : task.holds = false) : task'.holds = false := by
  unfold Task.reap at reap
  split at reap <;> cases reap <;> first | rfl | cases none

theorem fork_holds {task task' child : Task} (fork : task.fork = some (task',child)) : task.holds = true := by
  unfold Task.fork at fork
  split at fork <;> cases fork <;> rfl

theorem Settled.become (settled : Settled st) {task : Task} (none : task.holds = false) : Settled (st.become pid p task) := by
  intro ended
  refine ⟨(settled ended).1,fun q p' found => ?_⟩
  by_cases here : q = pid
  · subst here
    simp only [State.become,Function.update_self,Option.some.injEq] at found
    exact found ▸ none
  · exact (settled ended).2 q p' (by simpa [State.become,here] using found)

theorem Settled.step {m : Move} (settled : Settled st) (inv : Inv st lost) (next : Effect st m st') : Settled st' := by
  cases next with
  | forks found fork new =>
    intro ended
    have held := (settled ended).2 _ _ found
    rw [fork_holds fork] at held
    cases held
  | fails found fails => exact settled.become rfl
  | goes found next =>
    intro ended
    exact settled.become (next_holds next ((settled ended).2 _ _ found)) ended
  | writes found tell =>
    intro ended
    have held := (settled ended).2 _ _ found
    rw [tell] at held
    cases held
  | @reaps pid child p c task found reap exited zombie =>
    intro ended
    have after : Settled (st.become pid p task) := settled.become (reap_holds reap ((settled ended).2 _ _ found))
    refine ⟨(after ended).1,fun q p' found' => ?_⟩
    by_cases here : q = child
    · simp [here] at found'
    · exact (after ended).2 q p' (by simpa [here] using found')
  | reads running some =>
    intro ended
    rw [running] at ended
    cases ended
  | ends none closed =>
    intro _
    refine ⟨none,fun q p found => ?_⟩
    have none := closed q (inv.below q p found)
    rwa [found] at none

theorem run_simple {moves : List Move} (ran : run st moves = some st') : st.simple ⊆ st'.simple := by
  induction moves generalizing st with
  | nil =>
    cases ran
    exact List.Subset.refl _
  | cons m rest ih =>
    rw [run,Option.bind_eq_bind,Option.bind_eq_some_iff] at ran
    obtain ⟨next,stepped,ran⟩ := ran
    exact List.Subset.trans (effect_simple (step_effect stepped)) (ih ran)

theorem run_inv {moves : List Move} (inv : Inv st lost) (settled : Settled st) (ran : run st moves = some st')
    (small : ∀ pid ∈ st'.simple, 1 ≤ pid ∧ pid ≤ 127) :
    ∃ lost', Inv st' lost' ∧ Settled st' ∧ lost.length ≤ lost'.length ∧ (lost'.length = lost.length ↔ Single st moves) := by
  induction moves generalizing st lost with
  | nil =>
    cases ran
    exact ⟨lost,inv,settled,le_rfl,by simp [Single]⟩
  | cons m rest ih =>
    have within := run_simple ran
    rw [run,Option.bind_eq_bind,Option.bind_eq_some_iff] at ran
    obtain ⟨next,stepped,ran⟩ := ran
    have effect := step_effect stepped
    obtain ⟨lost1,inv1,more1,same1⟩ := inv.step (fun pid mem => small pid (within mem)) effect
    obtain ⟨lost2,inv2,settled2,more2,same2⟩ := ih inv1 (settled.step inv effect) ran
    have single : Single st (m :: rest) ↔ (m = .reads → st.pipe.length = 1) ∧ Single next rest := by simp [Single,stepped]
    refine ⟨lost2,inv2,settled2,by omega,?_⟩
    rw [single,← same1,← same2]
    omega

theorem Settled.written (settled : Settled st) (ended : st.ended = true) : st.written = st.simple := by
  refine filter_eq_self.mpr fun pid _ => ?_
  cases found : st.procs pid with
  | none => simp [State.owing,found]
  | some p =>
    have none := (settled ended).2 pid p found
    have owes : p.task.owes = false := by
      cases task : p.task <;> first | rfl | (rw [task] at none; cases none)
    simp [State.owing,found,owes]

/-- When the shell has left its loop, the list of the job has the pid of each process of a simple command once and nothing else, exactly if each
    read has found one byte. -/
theorem pids_registered (t : Tree) (pid : Nat) (moves : List Move) (st : State) (ran : run (begin t pid) moves = some st) (ended : st.ended = true)
    (small : ∀ pid ∈ st.simple, 1 ≤ pid ∧ pid ≤ 127) :
    (st.registered.Nodup ∧ st.registered.Perm (st.simple.map Int.ofNat)) ↔ Single (begin t pid) moves := by
  have settled : Settled (begin t pid) := fun ended => by cases ended
  obtain ⟨lost,inv,settled,-,same⟩ := run_inv (begin_inv t pid) settled ran small
  have told := inv.told
  rw [settled.written ended,(settled ended).1,map_nil,nil_append] at told
  rw [← same]
  constructor
  · rintro ⟨-,all⟩
    have count := told.length_eq
    rw [length_append,all.length_eq] at count
    exact Nat.left_eq_add.mp count.symm
  · intro none
    rw [length_eq_zero_iff.mp none,append_nil] at told
    exact ⟨told.nodup_iff.mpr (inv.distinct.map fun _ _ same => Int.ofNat.inj same),told⟩

/-- `a | b`, where the shell reads after each of them has written. -/
def onePipeline : List Move :=
  [.forks 3 4,.forks 3 5,.goes 3,.forks 4 6,.forks 5 7,.goes 4,.goes 5,.goes 6,.goes 7,.writes 6,.reads,.writes 7,.reads,.goes 6,.goes 7,.ends]

theorem pids_registered_pipeline :
    ∃ st, run (begin (.pipe (.exec [[97]]) (.exec [[98]])) 3) onePipeline = some st ∧ st.ended = true ∧ st.simple = [7,6] ∧
      Single (begin (.pipe (.exec [[97]]) (.exec [[98]])) 3) onePipeline ∧ st.registered.Nodup ∧ st.registered.Perm [7,6] := by
  have single : Single (begin (.pipe (.exec [[97]]) (.exec [[98]])) 3) onePipeline := by decide
  exact ⟨_,rfl,rfl,rfl,single,(pids_registered (.pipe (.exec [[97]]) (.exec [[98]])) 3 onePipeline _ rfl rfl (by decide)).mpr single⟩

/-- `a | b`, where the shell reads when both have written. -/
theorem pid_is_lost :
    ∃ st, run (begin (.pipe (.exec [[97]]) (.exec [[98]])) 3)
        [.forks 3 4,.forks 3 5,.goes 3,.forks 4 6,.forks 5 7,.goes 4,.goes 5,.goes 6,.goes 7,.writes 6,.writes 7,.reads,.goes 6,.goes 7,.ends] = some st ∧
      st.ended = true ∧ st.simple = [7,6] ∧ st.registered = [6] :=
  ⟨_,rfl,rfl,rfl,rfl⟩

end Osce.Sh.Pids
