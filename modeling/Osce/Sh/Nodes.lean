import Osce.Lib.Chain
import Osce.Proc.Code
import Osce.Sh.Sweep

/-!
The jobs and processes of the shell as nodes in its memory, and how the list of the processes of a job is cleaned. A block that has been freed
is not there any more, so a second `free` and a read through a null pointer or of a freed block are faults. The loops follow pointers, so they have a
number of turns left.
-/
namespace Osce.Sh.Nodes
open Osce.Lib Function
open Osce.Procs (ProcState)

/-- The fields of a `struct job` but `nextjob`. -/
structure JobFields where
  id : UInt32
  headOfProcesses : Nat
  jobInFd : Nat
  type : JobType
  cmd : Nat

/-- What is in a block that `malloc` has returned: a `struct jobprocess`, a `struct job`, or the text of a command. -/
inductive Node where
  | process (pid : Int) (nextProcess : Nat)
  | job (fields : JobFields) (nextjob : Nat)
  | text (cmd : List UInt8)

abbrev Mem : Type := Nat → Option Node

def processAt (mem : Mem) (p : Nat) : Option (Int × Nat) :=
  match mem p with
  | some (.process pid nextProcess) => some (pid,nextProcess)
  | _ => none

def loadProcess (mem : Mem) (p : Nat) : Except Err (Int × Nat) :=
  if p = 0 then .error .fault else (processAt mem p).elim (.error .fault) .ok

/-- `p->nextProcess = nextProcess` -/
def setNextProcess (mem : Mem) (p nextProcess : Nat) : Except Err Mem := do
  let (pid,_) ← loadProcess mem p
  pure (Function.update mem p (some (.process pid nextProcess)))

def free (mem : Mem) (p : Nat) : Except Err Mem :=
  if p = 0 ∨ (mem p).isNone then .error .fault else .ok (Function.update mem p none)

variable {mem mem' mem'' : Mem} {p next : Nat} {pid : Int}

theorem loadProcess_eq (some' : p ≠ 0) (here : processAt mem p = some (pid,next)) : loadProcess mem p = .ok (pid,next) := by
  rw [loadProcess,if_neg some',here]
  rfl

theorem setNextProcess_eq (some' : p ≠ 0) (here : processAt mem p = some (pid,next)) (nextProcess : Nat) :
    setNextProcess mem p nextProcess = .ok (update mem p (some (.process pid nextProcess))) := by
  rw [setNextProcess,loadProcess_eq some' here]
  rfl

theorem free_eq (some' : p ≠ 0) (here : (mem p).isSome) : free mem p = .ok (update mem p none) := by
  rw [free,if_neg]
  simp [some',Option.isSome_iff_ne_none.mp here]

theorem isSome_of_processAt {x : Int × Nat} (here : processAt mem p = some x) : (mem p).isSome := by
  rw [processAt] at here
  split at here
  next held => rw [held]; rfl
  next => cases here

theorem processAt_congr {a : Nat} (same : mem' a = mem a) : processAt mem' a = processAt mem a := by
  rw [processAt,processAt,same]

@[simp] theorem processAt_update (mem : Mem) (p : Nat) (pid : Int) (next : Nat) :
    processAt (update mem p (some (.process pid next))) p = some (pid,next) := by
  simp [processAt]

/-- `pstat(pid, &stat) < 0 || stat.state == ZOMBIE` -/
def gone (pstat : Int → Option ProcState) (pid : Int) : Bool :=
  match pstat pid with
  | none => true
  | some state => state = .ZOMBIE

/-- The first loop: the first process that is not gone, or null. -/
def firstProcess (pstat : Int → Option ProcState) : Nat → Nat → Mem → Except Err (Nat × Mem)
  | 0, _, _ => .error .turns
  | turns + 1, currentProcess, mem =>
    if currentProcess = 0 then .ok (0,mem)
    else do
      let (pid,temp) ← loadProcess mem currentProcess
      if gone pstat pid then do
        let mem ← free mem currentProcess
        firstProcess pstat turns temp mem
      else .ok (currentProcess,mem)

def restProcesses (pstat : Int → Option ProcState) : Nat → Nat → Nat → Mem → Except Err Mem
  | 0, _, _, _ => .error .turns
  | turns + 1, prevProcess, currentProcess, mem =>
    if currentProcess = 0 then .ok mem
    else do
      let (pid,nextProcess) ← loadProcess mem currentProcess
      if gone pstat pid then do
        let mem ← setNextProcess mem prevProcess nextProcess
        let mem ← free mem currentProcess
        -- prevProcess->nextProcess->nextProcess
        let (_,nextProcess) ← loadProcess mem prevProcess
        let (_,nextProcess) ← loadProcess mem nextProcess
        restProcesses pstat turns prevProcess nextProcess mem
      else restProcesses pstat turns currentProcess nextProcess mem

def clearZombieProcesses (pstat : Int → Option ProcState) (turns : Nat) (head : Nat) (mem : Mem) : Except Err (Nat × Mem) :=
  if head = 0 then .ok (head,mem)
  else do
    let (newHead,mem) ← firstProcess pstat turns head mem
    if newHead ≠ 0 then do
      let (_,nextProcess) ← loadProcess mem newHead
      let mem ← restProcesses pstat turns newHead nextProcess mem
      pure (newHead,mem)
    else pure (newHead,mem)

/-- From one memory to another these blocks were freed, and nothing else changed outside of some blocks. -/
structure Frees (freed within : List Nat) (mem mem' : Mem) : Prop where
  none : ∀ a ∈ freed, mem' a = none
  some : ∀ a, a ∉ freed → (mem' a).isSome = (mem a).isSome
  same : ∀ a, a ∉ within → mem' a = mem a

theorem frees_refl (within : List Nat) (mem : Mem) : Frees [] within mem mem := ⟨by simp,fun _ _ => rfl,fun _ _ => rfl⟩

theorem Frees.mono {freed within wider : List Nat} (frees : Frees freed within mem mem') (sub : ∀ a ∈ within, a ∈ wider) :
    Frees freed wider mem mem' :=
  ⟨frees.none,frees.some,fun a out => frees.same a fun isIn => out (sub a isIn)⟩

theorem frees_write {node : Node} (here : (mem p).isSome) : Frees [] [p] mem (update mem p (some node)) := by
  refine ⟨by simp,fun a _ => ?_,fun a out => update_of_ne (by simpa using out) _ _⟩
  by_cases isP : a = p
  · rw [isP,update_self,here]
    rfl
  · rw [update_of_ne isP]

theorem frees_free (mem : Mem) (p : Nat) : Frees [p] [p] mem (update mem p none) := by
  refine ⟨by simp,fun a out => ?_,fun a out => update_of_ne (by simpa using out) _ _⟩
  rw [update_of_ne (by simpa using out)]

theorem Frees.trans {freed freed' within within' wider : List Nat} (first : Frees freed within mem mem') (second : Frees freed' within' mem' mem'')
    (apart : ∀ a ∈ freed, a ∉ within') (sub : ∀ a ∈ within, a ∈ wider) (sub' : ∀ a ∈ within', a ∈ wider) :
    Frees (freed ++ freed') wider mem mem'' := by
  refine ⟨fun a isIn => ?_,fun a out => ?_,fun a out => ?_⟩
  · rcases List.mem_append.mp isIn with early | later
    · rw [second.same a (apart a early),first.none a early]
    · exact second.none a later
  · rw [List.mem_append,not_or] at out
    rw [second.some a out.2,first.some a out.1]
  · rw [second.same a fun isIn => out (sub' a isIn),first.same a fun isIn => out (sub a isIn)]

section
variable {pstat : Int → Option ProcState} {passed nodes : List (Nat × Int)} {node : Nat × Int} {prev cur turns : Nat} {d : Int}

def goneNode (pstat : Int → Option ProcState) (node : Nat × Int) : Bool := gone pstat node.2

theorem unlink_spec (list : Chain (processAt mem) prev ((prev,d) :: (passed ++ node :: nodes))) (here : processAt mem node.1 = some (node.2,next))
    (after : Chain (processAt mem) next nodes) :
    ∃ mem', setNextProcess mem prev next >>= (fun mem => free mem node.1) = .ok mem' ∧ Chain (processAt mem') prev ((prev,d) :: nodes) ∧
      loadProcess mem' prev = .ok (d,next) ∧ Chain (processAt mem') next nodes ∧ Frees [node.1] [prev,node.1] mem mem' := by
  have nodup := list.nodup
  simp only [addrs_cons,addrs_append,List.nodup_cons,List.nodup_append,List.mem_append,List.mem_cons,not_or] at nodup
  obtain ⟨⟨-,other,notAfter⟩,-,⟨notAgain,-⟩,-⟩ := nodup
  have ne : node.1 ≠ 0 := (list.data (by simp : node ∈ _)).1
  obtain ⟨-,some',n,first,-⟩ := list
  have apart : ∀ a ∈ addrs nodes, processAt (update (update mem prev (some (.process d next))) node.1 none) a = processAt mem a := by
    intro a isIn
    refine processAt_congr ?_
    rw [update_of_ne (by rintro rfl; exact notAgain isIn),update_of_ne (by rintro rfl; exact notAfter isIn)]
  have atPrev : processAt (update (update mem prev (some (.process d next))) node.1 none) prev = some (d,next) := by
    rw [← processAt_update mem prev d next]
    exact processAt_congr (update_of_ne other _ _)
  have atNode : (update mem prev (some (Node.process d next)) node.1).isSome := by
    rw [update_of_ne (Ne.symm other)]
    exact isSome_of_processAt here
  have wrote : Frees [] [prev] mem (update mem prev (some (.process d next))) := frees_write (isSome_of_processAt first)
  refine ⟨_,?_,⟨rfl,some',next,atPrev,after.congr apart⟩,loadProcess_eq some' atPrev,after.congr apart,?_⟩
  · rw [setNextProcess_eq some' first,ok_bind,free_eq ne atNode]
  · exact wrote.trans (frees_free _ node.1) (by simp) (by simp) (by simp)

theorem restProcesses_null (isNull : cur = 0) (positive : 0 < turns) : restProcesses pstat turns prev cur mem = .ok mem := by
  obtain ⟨turns,rfl⟩ := Nat.exists_eq_succ_of_ne_zero (Nat.ne_of_gt positive)
  rw [restProcesses,if_pos isNull]

theorem restProcesses_live (ne : cur ≠ 0) (here : processAt mem cur = some (pid,next)) (live : gone pstat pid = false) :
    restProcesses pstat (turns + 1) prev cur mem = restProcesses pstat turns cur next mem := by
  rw [restProcesses,if_neg ne,loadProcess_eq ne here,ok_bind]
  simp [live]

theorem restProcesses_gone (ne : cur ≠ 0) (here : processAt mem cur = some (pid,next)) (isGone : gone pstat pid = true)
    (unlinked : setNextProcess mem prev next >>= (fun mem => free mem cur) = .ok mem') (loaded : loadProcess mem' prev = .ok (d,next)) :
    restProcesses pstat (turns + 1) prev cur mem = loadProcess mem' next >>= fun after => restProcesses pstat turns prev after.2 mem' := by
  rw [restProcesses,if_neg ne,loadProcess_eq ne here,ok_bind]
  simp only [isGone,if_true]
  rw [← bind_assoc,unlinked,ok_bind,loaded,ok_bind]

/-- The second loop follows a null pointer when it has unlinked the last node, or leaves what the loop over the list leaves. -/
theorem restProcesses_spec (pstat : Int → Option ProcState) (enough : nodes.length < turns) (list : Chain (processAt mem) prev ((prev,d) :: (passed ++ nodes)))
    (here : Chain (processAt mem) cur nodes) :
    endsGone (goneNode pstat) nodes = true ∧ restProcesses pstat turns prev cur mem = .error .fault ∨
      endsGone (goneNode pstat) nodes = false ∧ ∃ mem', restProcesses pstat turns prev cur mem = .ok mem' ∧
        Chain (processAt mem') prev ((prev,d) :: leftRest (goneNode pstat) passed nodes) ∧
        Frees (addrs ((lookedRest (goneNode pstat) nodes).filter (goneNode pstat))) (prev :: addrs (passed ++ nodes)) mem mem' := by
  fun_induction lookedRest (goneNode pstat) nodes generalizing turns prev cur d passed mem with
  | case1 =>
    refine .inr ⟨rfl,mem,restProcesses_null here enough,?_,frees_refl _ _⟩
    simpa [leftRest] using list
  | case2 node =>
    obtain ⟨turns,rfl⟩ : ∃ k, turns = k + 1 := ⟨turns - 1,by omega⟩
    obtain ⟨rfl,ne,next,held,after⟩ := here
    have isNull : next = 0 := after
    cases isGone : gone pstat node.2 with
    | true =>
      obtain ⟨mem',unlinked,-,loaded,-⟩ := unlink_spec list held after
      refine .inl ⟨isGone,?_⟩
      rw [restProcesses_gone ne held isGone unlinked loaded,isNull]
      rfl
    | false =>
      refine .inr ⟨isGone,mem,?_,?_,?_⟩
      · rw [restProcesses_live ne held isGone,restProcesses_null isNull (Nat.lt_of_succ_lt_succ enough)]
      · simpa [leftRest,goneNode,isGone] using list
      · simpa [goneNode,isGone] using frees_refl _ mem
  | case3 node after rest isGone ih =>
    obtain ⟨turns,rfl⟩ : ∃ k, turns = k + 1 := ⟨turns - 1,by omega⟩
    obtain ⟨rfl,ne,next,held,chain⟩ := here
    have nodup := list.nodup
    obtain ⟨mem',unlinked,list',loaded,⟨rfl,ne',next',held',rest'⟩,frees⟩ := unlink_spec list held chain
    have apart : ∀ a ∈ [node.1], a ∉ prev :: addrs ([after] ++ rest) := by
      simp only [addrs_cons,addrs_append,List.nodup_cons,List.nodup_append,List.mem_append,List.mem_cons] at nodup
      rintro a isNode isIn
      rw [List.mem_singleton.mp isNode] at isIn
      simp only [List.singleton_append,addrs_cons,List.mem_cons] at isIn
      grind
    rw [restProcesses_gone ne held isGone unlinked loaded,loadProcess_eq ne' held',ok_bind,endsGone,if_pos isGone,leftRest,if_pos isGone]
    have passed' : Chain (processAt mem') prev ((prev,d) :: ([after] ++ rest)) := list'
    refine (ih (by simp at enough; omega) passed' rest').imp id (And.imp_right ?_)
    rintro ⟨mem'',run,left',later⟩
    refine ⟨mem'',run,left',?_⟩
    rw [List.filter_cons_of_pos isGone,addrs_cons]
    exact frees.trans later apart (by simp) (by simp +contextual)
  | case4 node after rest live ih =>
    obtain ⟨turns,rfl⟩ : ∃ k, turns = k + 1 := ⟨turns - 1,by omega⟩
    have live : gone pstat node.2 = false := by simpa [goneNode] using live
    have nodup := list.nodup
    obtain ⟨rfl,ne,next,held,chain⟩ := here
    rw [restProcesses_live ne held live,endsGone,if_neg (by simp [goneNode,live]),leftRest,if_neg (by simp [goneNode,live])]
    have here : Chain (processAt mem) node.1 (node :: ([] ++ after :: rest)) := ⟨rfl,ne,next,held,chain⟩
    refine (ih (by simp at enough ⊢; omega) here chain).imp id (And.imp_right ?_)
    rintro ⟨mem',run,left',frees⟩
    refine ⟨mem',run,?_,?_⟩
    · rw [← List.cons_append] at list ⊢
      refine list.graft (fun a isIn => processAt_congr (frees.same a ?_)) fun q chain => ?_
      · simp only [List.nil_append,addrs_cons,addrs_append,List.nodup_cons,List.nodup_append,List.mem_append,List.mem_cons] at nodup isIn ⊢
        grind
      · rw [chain.1]
        exact left'
    · rw [List.filter_cons_of_neg (by simp [goneNode,live])]
      exact frees.mono (by simp +contextual)

theorem firstProcess_spec (pstat : Int → Option ProcState) (enough : nodes.length < turns) (list : Chain (processAt mem) cur nodes) :
    ∃ mem', firstProcess pstat turns cur mem = .ok (first (nodes.dropWhile (goneNode pstat)),mem') ∧
      Chain (processAt mem') (first (nodes.dropWhile (goneNode pstat))) (nodes.dropWhile (goneNode pstat)) ∧
      Frees (addrs (nodes.takeWhile (goneNode pstat))) (addrs (nodes.takeWhile (goneNode pstat))) mem mem' := by
  induction nodes generalizing turns cur mem with
  | nil =>
    obtain ⟨turns,rfl⟩ : ∃ k, turns = k + 1 := ⟨turns - 1,by simp at enough; omega⟩
    refine ⟨mem,?_,rfl,frees_refl _ _⟩
    rw [firstProcess,if_pos (show cur = 0 from list)]
    rfl
  | cons node rest ih =>
    obtain ⟨turns,rfl⟩ : ∃ k, turns = k + 1 := ⟨turns - 1,by omega⟩
    have nodup := list.nodup
    have whole := list
    obtain ⟨rfl,ne,next,held,chain⟩ := list
    rw [firstProcess,if_neg ne,loadProcess_eq ne held,ok_bind]
    cases isGone : gone pstat node.2 with
    | true =>
      have other : node.1 ∉ addrs rest := (List.nodup_cons.mp nodup).1
      have frees := frees_free mem node.1
      have chain' : Chain (processAt (update mem node.1 none)) next rest :=
        chain.congr fun a isIn => processAt_congr (update_of_ne (by rintro rfl; exact other isIn) _ _)
      obtain ⟨mem',run,live,later⟩ := ih (Nat.lt_of_succ_lt_succ enough) chain'
      have isGone' : goneNode pstat node = true := isGone
      rw [List.dropWhile_cons_of_pos isGone',List.takeWhile_cons_of_pos isGone',addrs_cons]
      refine ⟨mem',?_,live,frees.trans later ?_ (by simp) (by simp +contextual)⟩
      · simp only [isGone,if_true,free_eq ne (isSome_of_processAt held),ok_bind]
        exact run
      · rintro a isNode isIn
        rw [List.mem_singleton.mp isNode] at isIn
        obtain ⟨kept,isIn,same⟩ := mem_addrs.mp isIn
        exact other (mem_addrs.mpr ⟨kept,(List.takeWhile_sublist _).mem isIn,same⟩)
    | false =>
      rw [List.dropWhile_cons_of_neg (by simp [goneNode,isGone]),List.takeWhile_cons_of_neg (by simp [goneNode,isGone])]
      refine ⟨mem,?_,whole,frees_refl _ _⟩
      simp [isGone,first]

/-- Cleaning follows a null pointer, or leaves what the loops over the list leave. -/
theorem clearZombieProcesses_spec (pstat : Int → Option ProcState) (enough : nodes.length < turns) (list : Chain (processAt mem) cur nodes) :
    falls (goneNode pstat) nodes = true ∧ clearZombieProcesses pstat turns cur mem = .error .fault ∨
      falls (goneNode pstat) nodes = false ∧ ∃ newHead mem', clearZombieProcesses pstat turns cur mem = .ok (newHead,mem') ∧
        Chain (processAt mem') newHead (left (goneNode pstat) nodes) ∧ Frees (addrs (swept (goneNode pstat) nodes)) (addrs nodes) mem mem' := by
  by_cases isNull : cur = 0
  · obtain rfl : nodes = [] := list.unique isNull
    refine .inr ⟨rfl,cur,mem,?_,isNull,frees_refl _ _⟩
    rw [clearZombieProcesses,if_pos isNull]
  · obtain ⟨mem₁,run,chain,frees⟩ := firstProcess_spec pstat enough list
    have nodup := list.nodup
    have split := List.takeWhile_append_dropWhile (p := goneNode pstat) (l := nodes)
    simp only [clearZombieProcesses,if_neg isNull,run,ok_bind,falls,left,afterFirst,swept]
    cases live : nodes.dropWhile (goneNode pstat) with
    | nil =>
      refine .inr ⟨rfl,0,mem₁,rfl,rfl,?_⟩
      rw [live,List.append_nil] at split
      simpa [lookedRest,split] using frees
    | cons node tail =>
      rw [live] at chain split
      have wider : ∀ a ∈ addrs (nodes.takeWhile (goneNode pstat)), a ∈ addrs nodes := fun a isIn => by
        rw [← split,addrs_append]
        exact List.mem_append_left _ isIn
      have wider' : ∀ a ∈ node.1 :: addrs ([] ++ tail), a ∈ addrs nodes := fun a isIn => by
        rw [← split,addrs_append]
        exact List.mem_append_right _ isIn
      have apart : ∀ a ∈ addrs (nodes.takeWhile (goneNode pstat)), a ∉ node.1 :: addrs ([] ++ tail) := fun a early later => by
        rw [← split,addrs_append] at nodup
        exact (List.disjoint_of_nodup_append nodup) early later
      have shorter : tail.length < turns := by
        have := congrArg List.length split
        simp at this
        omega
      have whole : Chain (processAt mem₁) node.1 (node :: ([] ++ tail)) := chain
      obtain ⟨-,ne,next,held,after⟩ := chain
      simp only [first,ne_eq,ne,not_false_eq_true,if_true,loadProcess_eq ne held,ok_bind]
      refine (restProcesses_spec pstat shorter whole after).imp ?_ ?_
      · rintro ⟨fall,fault⟩
        exact ⟨fall,by rw [fault]; rfl⟩
      · rintro ⟨stays,mem',run',left',later⟩
        refine ⟨stays,node.1,mem',by rw [run']; rfl,left',?_⟩
        rw [addrs_append]
        exact frees.trans later apart wider wider'

theorem bind_more {α β : Type} {x : Except Err α} {f g : α → Except Err β} {r : β} (run : x >>= f = .ok r) (more : ∀ a, f a = .ok r → g a = .ok r) :
    x >>= g = .ok r := by
  cases x with
  | error e => cases run
  | ok a => exact more a run

theorem firstProcess_more {r : Nat × Mem} (k : Nat) (run : firstProcess pstat turns cur mem = .ok r) : firstProcess pstat (turns + k) cur mem = .ok r := by
  induction turns generalizing cur mem with
  | zero => cases run
  | succ turns ih =>
    rw [Nat.add_right_comm]
    rw [firstProcess] at run ⊢
    split at run
    next isNull => rw [if_pos isNull,run]
    next ne =>
      rw [if_neg ne]
      refine bind_more run fun node run => ?_
      simp only at run ⊢
      split at run
      next isGone =>
        rw [if_pos isGone]
        exact bind_more run fun mem => ih
      next live => rw [if_neg live,run]

theorem restProcesses_more {r : Mem} (k : Nat) (run : restProcesses pstat turns prev cur mem = .ok r) :
    restProcesses pstat (turns + k) prev cur mem = .ok r := by
  induction turns generalizing prev cur mem with
  | zero => cases run
  | succ turns ih =>
    rw [Nat.add_right_comm]
    rw [restProcesses] at run ⊢
    split at run
    next isNull => rw [if_pos isNull,run]
    next ne =>
      rw [if_neg ne]
      refine bind_more run fun node run => ?_
      simp only at run ⊢
      split at run
      next isGone =>
        rw [if_pos isGone]
        exact bind_more run fun mem run => bind_more run fun mem run => bind_more run fun _ run => bind_more run fun _ => ih
      next live =>
        rw [if_neg live]
        exact ih run

theorem clearZombieProcesses_more {r : Nat × Mem} (k : Nat) (run : clearZombieProcesses pstat turns cur mem = .ok r) :
    clearZombieProcesses pstat (turns + k) cur mem = .ok r := by
  rw [clearZombieProcesses] at run ⊢
  split at run
  next isNull => rw [if_pos isNull,run]
  next ne =>
    rw [if_neg ne]
    cases first : firstProcess pstat turns cur mem with
    | error e =>
      rw [first] at run
      cases run
    | ok found =>
      rw [first,ok_bind] at run
      rw [firstProcess_more k first,ok_bind]
      simp only at run ⊢
      split at run
      next some' =>
        rw [if_pos some']
        refine bind_more run fun node run => ?_
        cases rest : restProcesses pstat turns found.1 node.2 found.2 with
        | error e =>
          rw [rest] at run
          cases run
        | ok mem' =>
          rw [rest] at run
          rw [restProcesses_more k rest]
          exact run
      next isNull => rw [if_neg isNull,run]

/-- The nodes that are not gone are left, in order, exactly the others have been freed, and nothing else has changed. -/
structure Filtered (pstat : Int → Option ProcState) (nodes : List (Nat × Int)) (mem : Mem) (newHead : Nat) (mem' : Mem) : Prop where
  list : Chain (processAt mem') newHead (nodes.filter fun node => !goneNode pstat node)
  freed : ∀ a, mem' a = none ↔ mem a = none ∨ ∃ node ∈ nodes, node.1 = a ∧ goneNode pstat node = true
  same : ∀ a, a ∉ addrs nodes → mem' a = mem a

theorem Frees.filtered_iff {newHead head : Nat} (frees : Frees (addrs (swept (goneNode pstat) nodes)) (addrs nodes) mem mem')
    (list : Chain (processAt mem) head nodes) (left' : Chain (processAt mem') newHead (left (goneNode pstat) nodes)) :
    Filtered pstat nodes mem newHead mem' ↔ left (goneNode pstat) nodes = (nodes.filter fun node => !goneNode pstat node) ∧
      ∀ node ∈ nodes, goneNode pstat node = true → node ∈ swept (goneNode pstat) nodes := by
  constructor
  · intro filtered
    refine ⟨left'.unique filtered.list,fun node isIn isGone => ?_⟩
    by_contra notSwept
    have unseen : node.1 ∉ addrs (swept (goneNode pstat) nodes) := by
      rintro seen
      obtain ⟨other,isSwept,same⟩ := mem_addrs.mp seen
      rw [List.inj_on_of_nodup_map list.nodup (swept_mem isSwept).1 isIn same] at isSwept
      exact notSwept isSwept
    obtain ⟨-,next,held⟩ := list.data isIn
    have still := frees.some node.1 unseen
    rw [(filtered.freed node.1).mpr (.inr ⟨node,isIn,rfl,isGone⟩),isSome_of_processAt held] at still
    cases still
  · rintro ⟨isFilter,all⟩
    refine ⟨isFilter ▸ left',fun a => ?_,frees.same⟩
    by_cases seen : a ∈ addrs (swept (goneNode pstat) nodes)
    · obtain ⟨node,isSwept,same⟩ := mem_addrs.mp seen
      obtain ⟨isIn,isGone⟩ := swept_mem isSwept
      exact iff_of_true (frees.none a seen) (.inr ⟨node,isIn,same,isGone⟩)
    · rw [← Option.isNone_iff_eq_none,← Option.isNone_iff_eq_none,← Option.not_isSome,← Option.not_isSome,frees.some a seen]
      refine (or_iff_left ?_).symm
      rintro ⟨node,isIn,rfl,isGone⟩
      exact seen (mem_addrs.mpr ⟨node,all node isIn isGone,rfl⟩)

/-- A list with enough processes after each that is gone is filtered. -/
theorem filtered_of_spaced {head : Nat} (list : Chain (processAt mem) head nodes) (enough : nodes.length < turns)
    (spaced : Spaced false (goneNode pstat) id (nodes.dropWhile (goneNode pstat))) :
    ∃ newHead mem', clearZombieProcesses pstat turns head mem = .ok (newHead,mem') ∧ Filtered pstat nodes mem newHead mem' := by
  have keeps : ∀ node : Nat × Int, (id node).1 = node.1 := fun _ => rfl
  obtain ⟨stays,isFilter,all⟩ := (swept_iff keeps list.nodup).mpr spaced
  rw [kept_id,List.map_id] at isFilter
  obtain ⟨falls,-⟩ | ⟨-,newHead,mem',run,left',frees⟩ := clearZombieProcesses_spec pstat enough list
  · simp [falls] at stays
  · exact ⟨newHead,mem',run,(frees.filtered_iff list left').mpr ⟨isFilter,all⟩⟩

/-- Cleaning returns and is a filter exactly if after the first process that is not gone each one that is gone is followed by the last one, which is
    not gone, or by two that are not gone. -/
theorem processes_filtered_iff (pstat : Int → Option ProcState) {head : Nat} (list : Chain (processAt mem) head nodes) :
    (∃ turns newHead mem', clearZombieProcesses pstat turns head mem = .ok (newHead,mem') ∧ Filtered pstat nodes mem newHead mem') ↔
      Spaced false (goneNode pstat) id (nodes.dropWhile (goneNode pstat)) := by
  constructor
  · rintro ⟨turns,newHead,mem',run,filtered⟩
    have more := clearZombieProcesses_more (nodes.length + 1) run
    obtain ⟨-,fault⟩ | ⟨stays,newHead',mem'',run',left',frees⟩ :=
      clearZombieProcesses_spec pstat (by omega : nodes.length < turns + (nodes.length + 1)) list
    · rw [fault] at more
      cases more
    · rw [run'] at more
      cases more
      obtain ⟨isFilter,all⟩ := (frees.filtered_iff list left').mp filtered
      have keeps : ∀ node : Nat × Int, (id node).1 = node.1 := fun _ => rfl
      refine (swept_iff keeps list.nodup).mp ⟨.inr stays,?_,all⟩
      rw [kept_id,List.map_id,isFilter]
  · intro spaced
    exact ⟨_,filtered_of_spaced list (Nat.lt_succ_self _) spaced⟩

end

/-- The processes 1 and up, one block after the other from the address 8 on. -/
def processes (n : Nat) : Mem := fun a =>
  if a % 8 = 0 ∧ 8 ≤ a ∧ a ≤ 8 * n then some (.process (a / 8) (if a = 8 * n then 0 else a + 8)) else none

/-- The processes that are given are running, and there are no others. -/
def running (pids : List Int) (pid : Int) : Option ProcState := if pid ∈ pids then some .RUNNING else none

theorem processes_filtered_three : ∃ turns newHead mem', clearZombieProcesses (running [2,4]) turns 8 (processes 4) = .ok (newHead,mem') ∧
    Filtered (running [2,4]) [(8,1),(16,2),(24,3),(32,4)] (processes 4) newHead mem' := by
  have list : Chain (processAt (processes 4)) 8 [(8,1),(16,2),(24,3),(32,4)] := by simp [Chain,processAt,processes]
  refine (processes_filtered_iff _ list).mpr ?_
  simp [Spaced,Followed,goneNode,gone,running]

/-- When the last of two processes is gone, a null pointer is followed. Of five processes the second and the fourth are gone, and the third gets
    lost: it is not in the list, and it is not freed. -/
theorem processes_lost : (∀ turns > 2, clearZombieProcesses (running [1]) turns 8 (processes 2) = .error .fault) ∧
    ∃ mem', clearZombieProcesses (running [1,3,5]) 6 8 (processes 5) = .ok (8,mem') ∧ Chain (processAt mem') 8 [(8,1),(40,5)] ∧
      mem' 24 = some (.process 3 32) := by
  refine ⟨fun turns enough => ?_,_,rfl,?_,rfl⟩
  · have list : Chain (processAt (processes 2)) 8 [(8,1),(16,2)] := by simp [Chain,processAt,processes]
    obtain ⟨-,fault⟩ | ⟨stays,-⟩ := clearZombieProcesses_spec (running [1]) enough list
    · exact fault
    · simp [falls,endsGone,goneNode,gone,running] at stays
  · exact ⟨rfl,by decide,40,rfl,rfl,by decide,0,rfl,rfl⟩

end Osce.Sh.Nodes
