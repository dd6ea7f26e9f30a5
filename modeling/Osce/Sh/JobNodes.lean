import Osce.Sh.Nodes

/-!
How the list of jobs is cleaned in memory. `clearJobList` is given the function that cleans the processes of a job.
-/
namespace Osce.Sh.Nodes
open Osce.Lib Function List
open Osce.Procs (ProcState)

def jobAt (mem : Mem) (p : Nat) : Option (JobFields × Nat) :=
  match mem p with
  | some (.job fields nextjob) => some (fields,nextjob)
  | _ => none

def loadJob (mem : Mem) (p : Nat) : Except Err (JobFields × Nat) :=
  if p = 0 then .error .fault else (jobAt mem p).elim (.error .fault) .ok

/-- `p->nextjob = nextjob` -/
def setNextJob (mem : Mem) (p nextjob : Nat) : Except Err Mem := do
  let (fields,_) ← loadJob mem p
  pure (Function.update mem p (some (.job fields nextjob)))

/-- `p->headOfProcesses = head` -/
def setHeadOfProcesses (mem : Mem) (p head : Nat) : Except Err Mem := do
  let (fields,nextjob) ← loadJob mem p
  pure (Function.update mem p (some (.job { fields with headOfProcesses := head } nextjob)))

abbrev Clear : Type := Nat → Mem → Except Err (Nat × Mem)

/-- `currentJob->headOfProcesses = clearZombieProcesses(currentJob->headOfProcesses)` -/
def clearProcesses (clear : Clear) (mem : Mem) (currentJob : Nat) : Except Err Mem := do
  let (fields,_) ← loadJob mem currentJob
  let (head,mem) ← clear fields.headOfProcesses mem
  setHeadOfProcesses mem currentJob head

/-- The first loop: the first job that has processes left, or null. -/
def firstJob (clear : Clear) : Nat → Nat → Mem → Except Err (Nat × Mem)
  | 0, _, _ => .error .turns
  | turns + 1, currentJob, mem =>
    if currentJob = 0 then .ok (0,mem)
    else do
      let (_,temp) ← loadJob mem currentJob
      let mem ← clearProcesses clear mem currentJob
      let (fields,_) ← loadJob mem currentJob
      if fields.headOfProcesses = 0 then do
        let mem ← free mem fields.cmd
        let mem ← free mem currentJob
        firstJob clear turns temp mem
      else .ok (currentJob,mem)

def restJobs (clear : Clear) : Nat → Nat → Nat → Mem → Except Err Mem
  | 0, _, _, _ => .error .turns
  | turns + 1, prevJob, currentJob, mem =>
    if currentJob = 0 then .ok mem
    else do
      let mem ← clearProcesses clear mem currentJob
      let (fields,nextjob) ← loadJob mem currentJob
      if fields.headOfProcesses = 0 then do
        let mem ← setNextJob mem prevJob nextjob
        let mem ← free mem fields.cmd
        let mem ← free mem currentJob
        let (_,nextjob) ← loadJob mem prevJob
        if nextjob ≠ 0 then do
          let (_,nextjob) ← loadJob mem nextjob
          restJobs clear turns prevJob nextjob mem
        else restJobs clear turns prevJob 0 mem
      else restJobs clear turns currentJob nextjob mem

def clearJobList (clear : Clear) (turns : Nat) (head : Nat) (mem : Mem) : Except Err (Nat × Mem) :=
  if head = 0 then .ok (head,mem)
  else do
    let (newHead,mem) ← firstJob clear turns head mem
    if newHead ≠ 0 then do
      let (_,nextjob) ← loadJob mem newHead
      let mem ← restJobs clear turns newHead nextjob mem
      pure (newHead,mem)
    else pure (newHead,mem)

section
variable {mem mem' : Mem} {p next : Nat} {fields : JobFields}

theorem loadJob_eq (ne : p ≠ 0) (here : jobAt mem p = some (fields,next)) : loadJob mem p = .ok (fields,next) := by
  rw [loadJob,if_neg ne,here]
  rfl

theorem setNextJob_eq (ne : p ≠ 0) (here : jobAt mem p = some (fields,next)) (nextjob : Nat) :
    setNextJob mem p nextjob = .ok (update mem p (some (.job fields nextjob))) := by
  rw [setNextJob,loadJob_eq ne here]
  rfl

theorem setHeadOfProcesses_eq (ne : p ≠ 0) (here : jobAt mem p = some (fields,next)) (head : Nat) :
    setHeadOfProcesses mem p head = .ok (update mem p (some (.job { fields with headOfProcesses := head } next))) := by
  rw [setHeadOfProcesses,loadJob_eq ne here]
  rfl

theorem isSome_of_jobAt {x : JobFields × Nat} (here : jobAt mem p = some x) : (mem p).isSome := by
  rw [jobAt] at here
  split at here
  next held => rw [held]; rfl
  next => cases here

theorem jobAt_congr {a : Nat} (same : mem' a = mem a) : jobAt mem' a = jobAt mem a := by
  rw [jobAt,jobAt,same]

@[simp] theorem jobAt_update (mem : Mem) (p : Nat) (fields : JobFields) (next : Nat) :
    jobAt (update mem p (some (.job fields next))) p = some (fields,next) := by
  simp [jobAt]

end

/-- A job with its processes and its text, and where the job and the text are. -/
structure JobCell where
  addr : Nat
  text : Nat
  job : Job (Nat × Int)

def JobCell.fields (c : JobCell) : JobFields := ⟨c.job.id,first c.job.processes,c.job.jobInFd,c.job.type,c.text⟩

def JobCell.node (c : JobCell) : Nat × JobFields := (c.addr,c.fields)

def JobCell.blocks (c : JobCell) : List Nat := c.addr :: c.text :: addrs c.job.processes

structure JobCell.Stored (mem : Mem) (c : JobCell) : Prop where
  processes : Chain (processAt mem) (first c.job.processes) c.job.processes
  null : c.text ≠ 0
  text : mem c.text = some (.text c.job.cmd)

structure Listed (mem : Mem) (head : Nat) (cells : List JobCell) : Prop where
  list : Chain (jobAt mem) head (cells.map JobCell.node)
  stored : ∀ c ∈ cells, c.Stored mem

/-- A list of jobs in memory. No block is used twice. -/
structure Jobs (mem : Mem) (head : Nat) (cells : List JobCell) : Prop extends Listed mem head cells where
  nodup : (cells.flatMap JobCell.blocks).Nodup

section
variable {mem mem' mem'' : Mem} {next : Nat} {pstat : Int → Option ProcState} {clear : Clear} {c : JobCell} {cells passed : List JobCell} {turns prev cur : Nat} {d : JobFields}

def JobCell.dead (pstat : Int → Option ProcState) (c : JobCell) : Bool := c.job.dead (goneNode pstat)

def JobCell.clean (pstat : Int → Option ProcState) (c : JobCell) : JobCell :=
  { c with job := { c.job with processes := c.job.processes.filter fun node => !goneNode pstat node } }

/-- The blocks of a job that are to be freed: all, or its processes that are gone. -/
def JobCell.garbage (pstat : Int → Option ProcState) (c : JobCell) : List Nat :=
  if c.dead pstat then c.blocks else addrs (c.job.processes.filter (goneNode pstat))

/-- The function returns and is a filter on lists of these processes. -/
def Filters (pstat : Int → Option ProcState) (clear : Clear) (pids : List Int) : Prop :=
  ∀ mem head nodes, Chain (processAt mem) head nodes → nodes.map Prod.snd = pids →
    ∃ newHead mem', clear head mem = .ok (newHead,mem') ∧ Filtered pstat nodes mem newHead mem'

theorem filters_of_spaced {pids : List Int} (enough : pids.length < turns) (spaced : Spaced false (gone pstat) id (pids.dropWhile (gone pstat))) :
    Filters pstat (clearZombieProcesses pstat turns) pids := by
  rintro mem head nodes list rfl
  rw [length_map] at enough
  rw [dropWhile_map] at spaced
  exact filtered_of_spaced list enough (spaced_map Prod.snd _ spaced)

open JobCell

theorem JobCell.Stored.congr (stored : c.Stored mem) (same : ∀ a ∈ c.text :: addrs c.job.processes, mem' a = mem a) : c.Stored mem' := by
  refine ⟨stored.processes.congr fun a isIn => processAt_congr (same a (mem_cons_of_mem _ isIn)),stored.null,?_⟩
  rw [same c.text (mem_cons_self ..)]
  exact stored.text

theorem mem_blocks {a : Nat} (isIn : a ∈ c.blocks) (member : c ∈ cells) : a ∈ cells.flatMap blocks := mem_flatMap.mpr ⟨c,member,isIn⟩

theorem Listed.congr {head : Nat} (listed : Listed mem head cells) (same : ∀ a ∈ cells.flatMap blocks, mem' a = mem a) : Listed mem' head cells := by
  refine ⟨listed.list.congr fun a isIn => jobAt_congr (same a ?_),fun c member => (listed.stored c member).congr fun a isIn => ?_⟩
  · obtain ⟨node,isNode,rfl⟩ := mem_addrs.mp isIn
    obtain ⟨c,member,rfl⟩ := mem_map.mp isNode
    exact mem_blocks (mem_cons_self ..) member
  · exact same a (mem_blocks (mem_cons_of_mem _ isIn) member)

theorem Filtered.frees {nodes : List (Nat × Int)} {newHead : Nat} (filtered : Filtered pstat nodes mem newHead mem') :
    Frees (addrs (nodes.filter (goneNode pstat))) (addrs nodes) mem mem' := by
  have freed (a : Nat) : (∃ node ∈ nodes, node.1 = a ∧ goneNode pstat node = true) ↔ a ∈ addrs (nodes.filter (goneNode pstat)) := by
    rw [mem_addrs]
    simp only [mem_filter]
    tauto
  refine ⟨fun a isIn => (filtered.freed a).mpr (.inr ((freed a).mpr isIn)),fun a out => ?_,filtered.same⟩
  rw [Bool.eq_iff_iff,Option.isSome_iff_ne_none,Option.isSome_iff_ne_none,ne_eq,filtered.freed a,freed a,or_iff_left out]

theorem first_eq_zero {nodes : List (Nat × Int)} (chain : Chain (processAt mem) (first nodes) nodes) : first nodes = 0 ↔ nodes = [] := by
  cases nodes with
  | nil => simp [first]
  | cons node rest => simpa [first] using chain.2.1

theorem clean_dead : (c.clean pstat).job.processes = [] ↔ c.dead pstat = true := by
  simp [clean,JobCell.dead,Job.dead]

theorem clean_head (stored : (c.clean pstat).Stored mem) : (c.clean pstat).fields.headOfProcesses = 0 ↔ c.dead pstat = true :=
  (first_eq_zero stored.processes).trans clean_dead

theorem visited_blocks {a : Nat} (isIn : a ∈ c.addr :: addrs c.job.processes) : a ∈ c.blocks := by
  rcases mem_cons.mp isIn with rfl | process
  · simp [blocks]
  · simp [blocks,process]

theorem clearProcesses_spec (filters : Filters pstat clear (c.job.processes.map Prod.snd)) (ne : c.addr ≠ 0) (here : jobAt mem c.addr = some (c.fields,next))
    (stored : c.Stored mem) (nodup : c.blocks.Nodup) :
    ∃ mem', clearProcesses clear mem c.addr = .ok mem' ∧ loadJob mem' c.addr = .ok ((c.clean pstat).fields,next) ∧
      jobAt mem' c.addr = some ((c.clean pstat).fields,next) ∧ (c.clean pstat).Stored mem' ∧
      Frees (addrs (c.job.processes.filter (goneNode pstat))) (c.addr :: addrs c.job.processes) mem mem' := by
  obtain ⟨head,mem₁,run,filtered⟩ := filters mem _ _ stored.processes rfl
  simp only [blocks,nodup_cons,mem_cons,not_or] at nodup
  obtain ⟨⟨other,notProcess⟩,notText,-⟩ := nodup
  have here₁ : jobAt mem₁ c.addr = some (c.fields,next) := by
    rw [jobAt_congr (filtered.same _ notProcess),here]
  have isHead : { c.fields with headOfProcesses := head } = (c.clean pstat).fields := by
    rw [fields,fields,clean,← filtered.list.first]
  have here₂ := jobAt_update mem₁ c.addr (c.clean pstat).fields next
  refine ⟨update mem₁ c.addr (some (.job (c.clean pstat).fields next)),?_,loadJob_eq ne here₂,here₂,⟨?_,stored.null,?_⟩,?_⟩
  · rw [clearProcesses,loadJob_eq ne here,ok_bind]
    simp only [show c.fields.headOfProcesses = first c.job.processes from rfl,run,ok_bind]
    rw [setHeadOfProcesses_eq ne here₁,isHead]
  · have list : Chain (processAt mem₁) (first (c.clean pstat).job.processes) (c.clean pstat).job.processes := by
      have list := filtered.list
      rw [list.first] at list
      exact list
    refine list.congr fun a isIn => processAt_congr (update_of_ne ?_ _ _)
    rintro rfl
    obtain ⟨node,isIn,same⟩ := mem_addrs.mp isIn
    exact notProcess (mem_addrs.mpr ⟨node,mem_of_mem_filter isIn,same⟩)
  · show update mem₁ c.addr _ c.text = _
    rw [update_of_ne (Ne.symm other),filtered.same _ notText]
    exact stored.text
  · have frees := filtered.frees
    have wrote : Frees [] [c.addr] mem₁ (update mem₁ c.addr (some (.job (c.clean pstat).fields next))) :=
      frees_write (isSome_of_jobAt here₁)
    have both := frees.trans wrote (fun a isIn isJob => ?_) (fun a => mem_cons_of_mem c.addr) (by simp)
    · rwa [append_nil] at both
    · rw [mem_singleton.mp isJob] at isIn
      obtain ⟨node,isIn,same⟩ := mem_addrs.mp isIn
      exact notProcess (mem_addrs.mpr ⟨node,mem_of_mem_filter isIn,same⟩)

theorem Frees.isSome {freed within : List Nat} {a : Nat} (frees : Frees freed within mem mem') (here : (mem a).isSome) (out : a ∉ freed) : (mem' a).isSome := by
  rw [frees.some a out,here]

theorem visit_spec (filters : Filters pstat clear (c.job.processes.map Prod.snd)) (listed : Listed mem cur (c :: cells))
    (nodup : ((c :: cells).flatMap blocks).Nodup) :
    ∃ mem' next, cur = c.addr ∧ c.addr ≠ 0 ∧ loadJob mem c.addr = .ok (c.fields,next) ∧ clearProcesses clear mem c.addr = .ok mem' ∧
      loadJob mem' c.addr = .ok ((c.clean pstat).fields,next) ∧ jobAt mem' c.addr = some ((c.clean pstat).fields,next) ∧
      (c.clean pstat).Stored mem' ∧ Listed mem' next cells ∧
      Frees (addrs (c.job.processes.filter (goneNode pstat))) (c.addr :: addrs c.job.processes) mem mem' := by
  rw [flatMap_cons] at nodup
  obtain ⟨isC,ne,next,here,after⟩ := listed.list
  obtain ⟨mem',run,load,here',stored,frees⟩ := clearProcesses_spec filters ne here (listed.stored c (by simp)) (List.Nodup.of_append_left nodup)
  have rest : Listed mem next cells := ⟨after,fun x member => listed.stored x (by simp [member])⟩
  refine ⟨mem',next,isC,ne,loadJob_eq ne here,run,load,here',stored,rest.congr fun a isIn => frees.same a fun changed => ?_,frees⟩
  exact disjoint_of_nodup_append nodup (visited_blocks changed) isIn

theorem freeJob_spec (ne : c.addr ≠ 0) (null : c.text ≠ 0) (other : c.addr ≠ c.text) (here : (mem c.addr).isSome) (text : (mem c.text).isSome) :
    ∃ mem', free mem c.text >>= (fun mem => free mem c.addr) = .ok mem' ∧ Frees [c.text,c.addr] [c.text,c.addr] mem mem' := by
  have frees := frees_free mem c.text
  refine ⟨_,?_,frees.trans (frees_free _ c.addr) (by simpa using Ne.symm other) (by simp) (by simp)⟩
  rw [free_eq null text,ok_bind,free_eq ne (frees.isSome here (by simpa using other))]

theorem garbage_dead (dead : c.dead pstat = true) (a : Nat) :
    a ∈ addrs (c.job.processes.filter (goneNode pstat)) ++ [c.text,c.addr] ↔ a ∈ c.garbage pstat := by
  have all : c.job.processes.filter (goneNode pstat) = c.job.processes := by
    rw [filter_eq_self]
    simpa [JobCell.dead,Job.dead] using dead
  rw [garbage,if_pos dead,all,blocks]
  simp only [mem_append,mem_cons,not_mem_nil,or_false]
  tauto

theorem garbage_live (live : c.dead pstat = false) : c.garbage pstat = addrs (c.job.processes.filter (goneNode pstat)) := by
  rw [garbage,live]
  rfl

theorem Frees.of_mem {freed freed' within : List Nat} (frees : Frees freed within mem mem') (same : ∀ a, a ∈ freed ↔ a ∈ freed') :
    Frees freed' within mem mem' :=
  ⟨fun a isIn => frees.none a ((same a).mpr isIn),fun a out => frees.some a fun isIn => out ((same a).mp isIn),frees.same⟩

theorem deleted_frees {others : List Nat} (dead : c.dead pstat = true) (distinct : c.blocks.Nodup)
    (frees : Frees (addrs (c.job.processes.filter (goneNode pstat))) (c.addr :: addrs c.job.processes) mem mem')
    (tail : Frees [c.text,c.addr] (others ++ [c.text,c.addr]) mem' mem'') (out : ∀ a ∈ others, a ∉ c.blocks) :
    Frees (c.garbage pstat) (others ++ c.blocks) mem mem'' := by
  simp only [blocks,nodup_cons,mem_cons,not_or] at distinct
  have whole : Frees (addrs (c.job.processes.filter (goneNode pstat)) ++ [c.text,c.addr]) (others ++ c.blocks) mem mem'' := by
    refine frees.trans tail (fun a isIn changed => ?_) (fun a isIn => mem_append_right _ (visited_blocks isIn)) fun a isIn => ?_
    · obtain ⟨node,isNode,rfl⟩ := mem_addrs.mp isIn
      have process : node.1 ∈ addrs c.job.processes := mem_addrs.mpr ⟨node,mem_of_mem_filter isNode,rfl⟩
      simp only [mem_append,mem_cons,not_mem_nil,or_false] at changed
      rcases changed with other | isText | isJob
      · exact out _ other (visited_blocks (mem_cons_of_mem _ process))
      · exact distinct.2.1 (isText ▸ process)
      · exact distinct.1.2 (isJob ▸ process)
    · simp only [mem_append,mem_cons,not_mem_nil,or_false,blocks] at isIn ⊢
      tauto
  exact whole.of_mem (garbage_dead dead)

/-- The jobs after `prev`, where the second loop stands. -/
structure Ahead (mem : Mem) (prev : Nat) (d : JobFields) (passed cells : List JobCell) : Prop where
  list : Chain (jobAt mem) prev ((prev,d) :: (passed ++ cells).map JobCell.node)
  stored : ∀ c ∈ passed ++ cells, c.Stored mem
  nodup : (prev :: (passed ++ cells).flatMap JobCell.blocks).Nodup

/-- The jobs ahead share no block with each other, with those that were passed, and with `prev`. -/
structure Apart (prev : Nat) (passed : List JobCell) (c : JobCell) (cells : List JobCell) : Prop where
  prevPassed : prev ∉ passed.flatMap JobCell.blocks
  prevBlocks : prev ∉ c.blocks
  prevCells : prev ∉ cells.flatMap JobCell.blocks
  passed : ∀ a ∈ passed.flatMap JobCell.blocks, a ∉ c.blocks ∧ a ∉ cells.flatMap JobCell.blocks
  nodup : ((c :: cells).flatMap JobCell.blocks).Nodup
  cells : ∀ a ∈ c.blocks, a ∉ cells.flatMap JobCell.blocks
  blocks : c.blocks.Nodup

theorem Ahead.apart (ahead : Ahead mem prev d passed (c :: cells)) : Apart prev passed c cells := by
  have nodup := ahead.nodup
  simp only [flatMap_append,flatMap_cons,nodup_cons,mem_append,not_or] at nodup
  obtain ⟨⟨prevPassed,prevBlocks,prevCells⟩,nodup⟩ := nodup
  have cells' := List.Nodup.of_append_right nodup
  have disjoint := disjoint_of_nodup_append nodup
  refine ⟨prevPassed,prevBlocks,prevCells,fun a isIn => ⟨fun other => ?_,fun other => ?_⟩,cells',fun a isIn other => ?_,cells'.of_append_left⟩
  · exact disjoint isIn (mem_append_left _ other)
  · exact disjoint isIn (mem_append_right _ other)
  · exact disjoint_of_nodup_append cells' isIn other

theorem restJobs_live (turns prev : Nat) (filters : Filters pstat clear (c.job.processes.map Prod.snd)) (live : c.dead pstat = false)
    (listed : Listed mem cur (c :: cells)) (nodup : ((c :: cells).flatMap blocks).Nodup) :
    ∃ mem' next, restJobs clear (turns + 1) prev cur mem = restJobs clear turns c.addr next mem' ∧
      Ahead mem' c.addr (c.clean pstat).fields [] cells ∧ Listed mem' next cells ∧ (c.clean pstat).Stored mem' ∧
      Frees (c.garbage pstat) c.blocks mem mem' := by
  obtain ⟨mem',next,rfl,ne,-,run,load,here,stored,rest,frees⟩ := visit_spec filters listed nodup
  have some' : (c.clean pstat).fields.headOfProcesses ≠ 0 := by simp [clean_head stored,live]
  refine ⟨mem',next,?_,⟨⟨rfl,ne,next,here,rest.list⟩,rest.stored,?_⟩,rest,stored,?_⟩
  · rw [restJobs,if_neg ne,run,ok_bind,load,ok_bind]
    simp only [if_neg some']
  · rw [flatMap_cons,blocks,cons_append,nodup_cons] at nodup
    refine nodup_cons.mpr ⟨fun isIn => nodup.1 (mem_append_right _ isIn),?_⟩
    exact List.Nodup.of_append_right nodup.2
  · rw [garbage_live live]
    exact frees.mono fun a => visited_blocks

theorem restJobs_dead (turns : Nat) (filters : Filters pstat clear (c.job.processes.map Prod.snd)) (dead : c.dead pstat = true)
    (ahead : Ahead mem prev d passed (c :: cells)) (listed : Listed mem cur (c :: cells)) :
    ∃ mem' next, restJobs clear (turns + 1) prev cur mem =
        (if next ≠ 0 then loadJob mem' next >>= fun after => restJobs clear turns prev after.2 mem' else restJobs clear turns prev 0 mem') ∧
      Ahead mem' prev d [] cells ∧ Listed mem' next cells ∧ Frees (c.garbage pstat) (prev :: c.blocks) mem mem' := by
  have apart := ahead.apart
  have prevBlocks := apart.prevBlocks
  have distinct := apart.blocks
  obtain ⟨mem₁,next,rfl,ne,-,run,load,here,stored,rest,frees⟩ := visit_spec filters listed apart.nodup
  have isNull : (c.clean pstat).fields.headOfProcesses = 0 := (clean_head stored).mpr dead
  simp only [blocks,nodup_cons,mem_cons,not_or] at distinct prevBlocks
  obtain ⟨-,nePrev,n,atPrev,-⟩ := ahead.list
  have atPrev₁ : jobAt mem₁ prev = some (d,n) := by
    rw [jobAt_congr (frees.same prev (by simp [prevBlocks.1,prevBlocks.2.2])),atPrev]
  -- prevJob->nextjob = currentJob->nextjob
  have wrote : Frees [] [prev] mem₁ (update mem₁ prev (some (.job d next))) := frees_write (isSome_of_jobAt atPrev₁)
  have atText : (mem₁ c.text).isSome := by
    rw [show c.text = (c.clean pstat).text from rfl,stored.text]
    rfl
  obtain ⟨mem₃,freed,frees₃⟩ := freeJob_spec ne stored.null distinct.1.1 (wrote.isSome (isSome_of_jobAt here) (by simp)) (wrote.isSome atText (by simp))
  have atPrev₃ : jobAt mem₃ prev = some (d,next) := by
    rw [jobAt_congr (frees₃.same prev (by simp [prevBlocks.1,prevBlocks.2.1])),jobAt_update]
  have rest₃ : Listed mem₃ next cells := by
    refine rest.congr fun a isIn => ?_
    rw [frees₃.same a fun changed => apart.cells a ?_ isIn,wrote.same a fun changed => apart.prevCells ?_]
    · rw [← mem_singleton.mp changed]
      exact isIn
    · simp only [mem_cons,not_mem_nil,or_false] at changed
      rcases changed with rfl | rfl <;> simp [blocks]
  refine ⟨mem₃,next,?_,⟨⟨rfl,nePrev,next,atPrev₃,rest₃.list⟩,rest₃.stored,?_⟩,rest₃,?_⟩
  · rw [restJobs,if_neg ne,run,ok_bind,load,ok_bind]
    simp only [isNull,if_true,setNextJob_eq nePrev atPrev₁,ok_bind]
    rw [show (c.clean pstat).fields.cmd = c.text from rfl,← bind_assoc,freed,ok_bind,loadJob_eq nePrev atPrev₃,ok_bind]
  · have nodup := apart.nodup
    rw [flatMap_cons] at nodup
    exact nodup_cons.mpr ⟨apart.prevCells,nodup.of_append_right⟩
  · have tail : Frees [c.text,c.addr] ([prev] ++ [c.text,c.addr]) mem₁ mem₃ := wrote.trans frees₃ (by simp) (by simp) (by simp)
    exact deleted_frees dead apart.blocks frees tail (by simpa using apart.prevBlocks)

theorem restJobs_null (isNull : cur = 0) (positive : 0 < turns) : restJobs clear turns prev cur mem = .ok mem := by
  obtain ⟨turns,rfl⟩ := Nat.exists_eq_succ_of_ne_zero (Nat.ne_of_gt positive)
  rw [restJobs,if_pos isNull]

theorem garbage_blocks {a : Nat} (isIn : a ∈ c.garbage pstat) : a ∈ c.blocks := by
  cases dead : c.dead pstat with
  | true => rwa [garbage,if_pos dead] at isIn
  | false =>
    rw [garbage_live dead] at isIn
    obtain ⟨node,isNode,rfl⟩ := mem_addrs.mp isIn
    have process : node.1 ∈ addrs c.job.processes := mem_addrs.mpr ⟨node,mem_of_mem_filter isNode,rfl⟩
    simp [blocks,process]

theorem contents_apart {a : Nat} (distinct : c.blocks.Nodup) (apart : ∀ a ∈ c.blocks, a ∉ cells.flatMap blocks)
    (isIn : a ∈ c.text :: addrs c.job.processes) : a ∉ c.addr :: cells.flatMap blocks := by
  rw [mem_cons,not_or]
  refine ⟨?_,apart a (mem_cons_of_mem _ isIn)⟩
  rintro rfl
  exact (nodup_cons.mp distinct).1 isIn

theorem JobCell.Stored.later {freed : List Nat} (stored : (c.clean pstat).Stored mem) (distinct : c.blocks.Nodup)
    (apart : ∀ a ∈ c.blocks, a ∉ cells.flatMap blocks) (later : Frees freed (c.addr :: cells.flatMap blocks) mem mem') :
    (c.clean pstat).Stored mem' := by
  refine stored.congr fun a isIn => later.same a (contents_apart distinct apart ?_)
  rcases mem_cons.mp isIn with rfl | process
  · exact mem_cons_self ..
  · obtain ⟨node,isNode,rfl⟩ := mem_addrs.mp process
    exact mem_cons_of_mem _ (mem_addrs.mpr ⟨node,mem_of_mem_filter isNode,rfl⟩)

theorem garbage_contents {a : Nat} (live : c.dead pstat = false) (isIn : a ∈ c.garbage pstat) : a ∈ c.text :: addrs c.job.processes := by
  rw [garbage_live live] at isIn
  obtain ⟨node,isNode,rfl⟩ := mem_addrs.mp isIn
  exact mem_cons_of_mem _ (mem_addrs.mpr ⟨node,mem_of_mem_filter isNode,rfl⟩)

theorem Ahead.live {kept' : List JobCell} {freed : List Nat} {n : Nat} (ahead : Ahead mem prev d passed (c :: cells)) (live : c.dead pstat = false)
    (frees : Frees (c.garbage pstat) c.blocks mem mem') (later : Frees freed (c.addr :: cells.flatMap blocks) mem' mem'')
    (stored : (c.clean pstat).Stored mem') (atJob : jobAt mem'' c.addr = some ((c.clean pstat).fields,n)) (listed : Listed mem'' n kept') :
    ∃ n', jobAt mem'' prev = some (d,n') ∧ Listed mem'' n' (passed ++ c.clean pstat :: kept') ∧
      Frees (c.garbage pstat ++ freed) (prev :: (passed ++ c :: cells).flatMap blocks) mem mem'' := by
  have apart := ahead.apart
  have same (a : Nat) (out : a ∉ c.blocks) (out' : a ∉ cells.flatMap blocks) : mem'' a = mem a := by
    have other : a ≠ c.addr := fun isJob => out (by simp [isJob,blocks])
    rw [later.same a (by simp [other,out']),frees.same a out]
  have grafted : Chain (jobAt mem'') prev (((prev,d) :: passed.map node) ++ (c.clean pstat :: kept').map node) := by
    have list := ahead.list
    rw [map_append,← cons_append] at list
    refine list.graft (fun a isIn => jobAt_congr ?_) fun q chain => ⟨chain.1,chain.2.1,n,atJob,listed.list⟩
    rcases mem_cons.mp isIn with rfl | isPassed
    · exact same _ apart.prevBlocks apart.prevCells
    · obtain ⟨node,isNode,rfl⟩ := mem_addrs.mp isPassed
      obtain ⟨x,member,rfl⟩ := mem_map.mp isNode
      obtain ⟨out,out'⟩ := apart.passed x.addr (mem_blocks (mem_cons_self ..) member)
      exact same _ out out'
  rw [cons_append,← map_append] at grafted
  obtain ⟨-,-,n',atPrev,chain⟩ := grafted
  refine ⟨n',atPrev,⟨chain,fun x member => ?_⟩,?_⟩
  · rcases mem_append.mp member with isPassed | member
    · refine (ahead.stored x (mem_append_left _ isPassed)).congr fun a isIn => ?_
      obtain ⟨out,out'⟩ := apart.passed a (mem_blocks (mem_cons_of_mem _ isIn) isPassed)
      exact same a out out'
    · rcases mem_cons.mp member with rfl | isKept
      · exact stored.later apart.blocks apart.cells later
      · exact listed.stored x isKept
  · refine frees.trans later (fun a isIn => contents_apart apart.blocks apart.cells (garbage_contents live isIn))
      (fun a isIn => mem_cons_of_mem _ (mem_blocks isIn (by simp))) fun a isIn => mem_cons_of_mem _ ?_
    rw [flatMap_append,flatMap_cons]
    refine mem_append_right _ ?_
    rcases mem_cons.mp isIn with rfl | isBlock
    · exact mem_append_left _ (mem_cons_self ..)
    · exact mem_append_right _ isBlock

theorem Ahead.dead {freed : List Nat} (ahead : Ahead mem prev d passed (c :: cells))
    (frees : Frees (c.garbage pstat) (prev :: c.blocks) mem mem') (later : Frees freed (prev :: cells.flatMap blocks) mem' mem'') :
    Frees (c.garbage pstat ++ freed) (prev :: (passed ++ c :: cells).flatMap blocks) mem mem'' := by
  have apart := ahead.apart
  refine frees.trans later (fun a isIn changed => ?_) (fun a isIn => ?_) fun a isIn => ?_
  · have isBlock := garbage_blocks isIn
    rcases mem_cons.mp changed with rfl | other
    · exact apart.prevBlocks isBlock
    · exact apart.cells a isBlock other
  · rcases mem_cons.mp isIn with rfl | isBlock
    · exact mem_cons_self ..
    · exact mem_cons_of_mem _ (mem_blocks isBlock (by simp))
  · rcases mem_cons.mp isIn with rfl | isBlock
    · exact mem_cons_self ..
    · simp only [flatMap_append,flatMap_cons,mem_cons,mem_append]
      exact .inr (.inr (.inr isBlock))

theorem restJobs_spec (filters : ∀ c ∈ cells, Filters pstat clear (c.job.processes.map Prod.snd)) (enough : cells.length < turns)
    (ahead : Ahead mem prev d passed cells) (listed : Listed mem cur cells) :
    ∃ mem' n, restJobs clear turns prev cur mem = .ok mem' ∧ jobAt mem' prev = some (d,n) ∧
      Listed mem' n (keptRest (JobCell.dead pstat) (clean pstat) passed cells) ∧
      Frees ((lookedRest (JobCell.dead pstat) cells).flatMap (garbage pstat)) (prev :: (passed ++ cells).flatMap blocks) mem mem' := by
  fun_induction lookedRest (JobCell.dead pstat) cells generalizing turns prev cur d passed mem with
  | case1 =>
    obtain ⟨-,ne,n,atPrev,chain⟩ := ahead.list
    have stored := ahead.stored
    rw [append_nil] at chain stored
    exact ⟨mem,n,restJobs_null listed.list enough,atPrev,⟨chain,stored⟩,frees_refl _ _⟩
  | case2 c =>
    obtain ⟨turns,rfl⟩ : ∃ k, turns = k + 1 := ⟨turns - 1,by omega⟩
    have positive : 0 < turns := Nat.lt_of_succ_lt_succ enough
    cases dead : c.dead pstat with
    | true =>
      obtain ⟨mem',next,run,ahead',listed',frees⟩ := restJobs_dead turns (filters c (by simp)) dead ahead listed
      obtain ⟨-,-,n,atPrev,isEnd⟩ := ahead'.list
      have isNull : next = 0 := listed'.list
      refine ⟨mem',n,?_,atPrev,?_,ahead.dead frees (frees_refl _ _)⟩
      · rw [run,if_neg (by simp [isNull]),restJobs_null rfl positive]
      · rw [keptRest,if_pos dead]
        exact ⟨isEnd,by simp⟩
    | false =>
      obtain ⟨mem',next,run,ahead',listed',stored,frees⟩ := restJobs_live turns prev (filters c (by simp)) dead listed ahead.apart.nodup
      obtain ⟨-,-,n,atJob,isEnd⟩ := ahead'.list
      obtain ⟨n',atPrev,kept',whole⟩ := ahead.live dead frees (frees_refl _ _) stored atJob ⟨isEnd,by simp⟩
      refine ⟨mem',n',?_,atPrev,?_,whole⟩
      · rw [run,restJobs_null listed'.list positive]
      · rw [keptRest,dead]
        exact kept'
  | case3 c after rest dead ih =>
    obtain ⟨turns,rfl⟩ : ∃ k, turns = k + 1 := ⟨turns - 1,by omega⟩
    obtain ⟨mem',next,run,ahead',listed',frees⟩ := restJobs_dead turns (filters c (by simp)) dead ahead listed
    obtain ⟨rfl,ne,next',atAfter,chain⟩ := id listed'.list
    have passed' : Ahead mem' prev d [after] rest := ⟨ahead'.list,ahead'.stored,ahead'.nodup⟩
    have listed'' : Listed mem' next' rest := ⟨chain,fun x member => listed'.stored x (by simp [member])⟩
    obtain ⟨mem'',n,run',atPrev,kept',later⟩ := ih (fun x member => filters x (by simp [member])) (by simp at enough; omega : rest.length < turns) passed' listed''
    refine ⟨mem'',n,?_,atPrev,?_,ahead.dead frees later⟩
    · rw [run,if_pos ne,loadJob_eq ne atAfter,ok_bind,run']
    · rw [keptRest,if_pos dead]
      exact kept'
  | case4 c after rest live ih =>
    obtain ⟨turns,rfl⟩ : ∃ k, turns = k + 1 := ⟨turns - 1,by omega⟩
    have live : c.dead pstat = false := by simpa using live
    obtain ⟨mem',next,run,ahead',listed',stored,frees⟩ := restJobs_live turns prev (filters c (by simp)) live listed ahead.apart.nodup
    obtain ⟨mem'',n,run',atJob,kept',later⟩ := ih (fun x member => filters x (by simp [member])) (by simp at enough ⊢; omega : (after :: rest).length < turns) ahead' listed'
    obtain ⟨n',atPrev,kept'',whole⟩ := ahead.live live frees later stored atJob kept'
    refine ⟨mem'',n',run.trans run',atPrev,?_,whole⟩
    rw [keptRest,live]
    exact kept''

theorem firstJob_spec (filters : ∀ c ∈ cells, Filters pstat clear (c.job.processes.map Prod.snd)) (enough : cells.length < turns)
    (listed : Listed mem cur cells) (nodup : (cells.flatMap blocks).Nodup) :
    (∀ c ∈ cells, c.dead pstat = true) ∧
        (∃ mem', firstJob clear turns cur mem = .ok (0,mem') ∧
          Frees (cells.flatMap (garbage pstat)) (cells.flatMap blocks) mem mem') ∨
      ∃ pre c tail mem' next, cells = pre ++ c :: tail ∧ (∀ x ∈ pre, x.dead pstat = true) ∧ c.dead pstat = false ∧
        firstJob clear turns cur mem = .ok (c.addr,mem') ∧ c.addr ≠ 0 ∧ jobAt mem' c.addr = some ((c.clean pstat).fields,next) ∧
        (c.clean pstat).Stored mem' ∧ Listed mem' next tail ∧
        Frees ((pre ++ [c]).flatMap (garbage pstat)) ((pre ++ [c]).flatMap blocks) mem mem' := by
  induction cells generalizing turns cur mem with
  | nil =>
    obtain ⟨turns,rfl⟩ := Nat.exists_eq_succ_of_ne_zero (Nat.ne_of_gt enough)
    refine .inl ⟨by simp,mem,?_,frees_refl _ _⟩
    rw [firstJob,if_pos (show cur = 0 from listed.list)]
  | cons c cells ih =>
    obtain ⟨turns,rfl⟩ : ∃ k, turns = k + 1 := ⟨turns - 1,by omega⟩
    obtain ⟨mem₁,next,rfl,ne,load,run,load',here,stored,rest,frees⟩ := visit_spec (filters c (by simp)) listed nodup
    cases dead : c.dead pstat with
    | false =>
      have some' : (c.clean pstat).fields.headOfProcesses ≠ 0 := by simp [clean_head stored,dead]
      refine .inr ⟨[],c,cells,mem₁,next,rfl,by simp,dead,?_,ne,here,stored,rest,?_⟩
      · rw [firstJob,if_neg ne,load,ok_bind]
        simp only [run,ok_bind,load',if_neg some']
      · simpa [garbage_live dead] using frees.mono fun a => visited_blocks
    | true =>
      rw [flatMap_cons] at nodup
      have isNull : (c.clean pstat).fields.headOfProcesses = 0 := (clean_head stored).mpr dead
      have distinct := nodup.of_append_left
      have atText : (mem₁ c.text).isSome := by
        rw [show c.text = (c.clean pstat).text from rfl,stored.text]
        rfl
      have other : c.addr ≠ c.text := by
        rintro same
        simp [blocks,same] at distinct
      obtain ⟨mem₂,freed,frees₂⟩ := freeJob_spec ne stored.null other (isSome_of_jobAt here) atText
      have tail' : Frees [c.text,c.addr] ([] ++ [c.text,c.addr]) mem₁ mem₂ := frees₂
      have frees' : Frees (c.garbage pstat) c.blocks mem mem₂ := deleted_frees dead distinct frees tail' (by simp)
      have apart := disjoint_of_nodup_append nodup
      have rest₂ : Listed mem₂ next cells := by
        refine rest.congr fun a isIn => frees₂.same a fun changed => apart ?_ isIn
        simp only [mem_cons,not_mem_nil,or_false] at changed
        rcases changed with rfl | rfl <;> simp [blocks]
      have run' : firstJob clear (turns + 1) c.addr mem = firstJob clear turns next mem₂ := by
        rw [firstJob,if_neg ne,load,ok_bind]
        simp only [run,ok_bind,load',if_pos isNull]
        rw [show (c.clean pstat).fields.cmd = c.text from rfl,← bind_assoc,freed,ok_bind]
      rw [run']
      obtain ⟨all,mem',last,later⟩ | ⟨pre,x,tail,mem',next',rfl,all,live,last,ne',here',stored',rest',later⟩ :=
        ih (fun x member => filters x (by simp [member])) (Nat.lt_of_succ_lt_succ enough) rest₂ nodup.of_append_right
      · refine .inl ⟨forall_mem_cons.mpr ⟨dead,all⟩,mem',last,?_⟩
        rw [flatMap_cons,flatMap_cons]
        exact frees'.trans later (fun a isIn => apart (garbage_blocks isIn)) (fun a => mem_append_left _) fun a => mem_append_right _
      · refine .inr ⟨c :: pre,x,tail,mem',next',rfl,forall_mem_cons.mpr ⟨dead,all⟩,live,last,ne',here',stored',rest',?_⟩
        rw [cons_append,flatMap_cons,flatMap_cons]
        refine frees'.trans later (fun a isIn isLater => apart (garbage_blocks isIn) ?_) (fun a => mem_append_left _) fun a => mem_append_right _
        obtain ⟨y,member,isBlock⟩ := mem_flatMap.mp isLater
        exact mem_blocks isBlock ((List.Sublist.append_left (by simp) _).mem member)

theorem dropWhile_all (dead : JobCell → Bool) {cells : List JobCell} (all : ∀ c ∈ cells, dead c = true) : cells.dropWhile dead = [] :=
  dropWhile_eq_nil_iff.mpr all

theorem split_dead {dead : JobCell → Bool} {pre : List JobCell} (tail : List JobCell) (all : ∀ c ∈ pre, dead c = true) (live : dead c = false) :
    (pre ++ c :: tail).takeWhile dead = pre ∧ (pre ++ c :: tail).dropWhile dead = c :: tail := by
  constructor
  · rw [takeWhile_append_of_pos all,takeWhile_cons_of_neg (by simp [live]),append_nil]
  · rw [dropWhile_append_of_pos all,dropWhile_cons_of_neg (by simp [live])]

/-- Cleaning returns, and leaves what the loops over the list leave. -/
theorem clearJobList_spec {head : Nat} (jobs : Jobs mem head cells) (filters : ∀ c ∈ cells, Filters pstat clear (c.job.processes.map Prod.snd))
    (enough : cells.length < turns) :
    ∃ newHead mem', clearJobList clear turns head mem = .ok (newHead,mem') ∧
      Listed mem' newHead (kept (JobCell.dead pstat) (clean pstat) cells) ∧
      Frees ((visited (JobCell.dead pstat) cells).flatMap (garbage pstat)) (cells.flatMap blocks) mem mem' := by
  by_cases isNull : head = 0
  · have none : cells = [] := map_eq_nil_iff.mp (jobs.list.unique isNull)
    rw [none]
    refine ⟨head,mem,?_,⟨isNull,by simp [kept]⟩,frees_refl _ _⟩
    rw [clearJobList,if_pos isNull]
  · rw [clearJobList,if_neg isNull,visited,looked,afterFirst,kept]
    obtain ⟨all,mem',run,frees⟩ | ⟨pre,c,tail,mem₁,next,rfl,all,live,run,ne,here,stored,rest,frees⟩ :=
      firstJob_spec filters enough jobs.toListed jobs.nodup
    · have gone : cells.takeWhile (JobCell.dead pstat) = cells := takeWhile_eq_self_iff.mpr all
      refine ⟨0,mem',by simp [run],?_,?_⟩
      · rw [dropWhile_all _ all]
        exact ⟨rfl,by simp⟩
      · rw [dropWhile_all _ all,gone,append_nil]
        exact frees
    · obtain ⟨taken,dropped⟩ := split_dead tail all live
      have nodup := jobs.nodup
      rw [flatMap_append,flatMap_cons] at nodup
      have nodup' := nodup.of_append_right
      have distinct := nodup'.of_append_left
      have apart := disjoint_of_nodup_append nodup'
      have ahead : Ahead mem₁ c.addr (c.clean pstat).fields [] tail := by
        refine ⟨⟨rfl,ne,next,here,rest.list⟩,rest.stored,nodup_cons.mpr ⟨?_,nodup'.of_append_right⟩⟩
        exact apart (mem_cons_self ..)
      obtain ⟨mem',n,run',atHead,rest',later⟩ := restJobs_spec (fun x member => filters x (by simp [member]))
        (by simp at enough; omega : tail.length < turns) ahead rest
      refine ⟨c.addr,mem',?_,?_,?_⟩
      · simp only [run,ok_bind,ne_eq,ne,not_false_eq_true,if_true,loadJob_eq ne here,run',pure_ok]
      · rw [dropped]
        refine ⟨⟨rfl,ne,n,atHead,rest'.list⟩,forall_mem_cons.mpr ⟨?_,rest'.stored⟩⟩
        exact stored.later distinct apart later
      · rw [taken,dropped]
        have freed : (pre ++ c :: lookedRest (JobCell.dead pstat) tail).flatMap (garbage pstat) =
            (pre ++ [c]).flatMap (garbage pstat) ++ (lookedRest (JobCell.dead pstat) tail).flatMap (garbage pstat) := by simp
        rw [freed]
        refine frees.trans later (fun a isIn => ?_) (fun a isIn => ?_) fun a isIn => ?_
        · obtain ⟨y,member,isGarbage⟩ := mem_flatMap.mp isIn
          rcases mem_append.mp member with isPre | isC
          · have early := mem_blocks (garbage_blocks isGarbage) isPre
            have disjoint := disjoint_of_nodup_append nodup early
            rw [mem_cons,not_or]
            refine ⟨?_,fun isLater => disjoint (mem_append_right _ isLater)⟩
            rintro rfl
            exact disjoint (mem_append_left _ (mem_cons_self ..))
          · rw [mem_singleton.mp isC] at isGarbage
            exact contents_apart distinct apart (garbage_contents live isGarbage)
        · obtain ⟨y,member,isBlock⟩ := mem_flatMap.mp isIn
          exact mem_blocks isBlock ((List.Sublist.append_left (by simp) _).mem member)
        · rcases mem_cons.mp isIn with rfl | isBlock
          · exact mem_blocks (mem_cons_self ..) (by simp : c ∈ _)
          · obtain ⟨y,member,isBlock⟩ := mem_flatMap.mp isBlock
            exact mem_blocks isBlock (mem_append_right _ (mem_cons_of_mem _ member))

theorem firstJob_more {r : Nat × Mem} (k : Nat) (run : firstJob clear turns cur mem = .ok r) : firstJob clear (turns + k) cur mem = .ok r := by
  induction turns generalizing cur mem with
  | zero => cases run
  | succ turns ih =>
    rw [Nat.add_right_comm]
    rw [firstJob] at run ⊢
    split at run
    next isNull => rw [if_pos isNull,run]
    next ne =>
      rw [if_neg ne]
      refine bind_more run fun node run => bind_more run fun mem run => bind_more run fun node run => ?_
      simp only at run ⊢
      split at run
      next isNull =>
        rw [if_pos isNull]
        exact bind_more run fun mem run => bind_more run fun mem => ih
      next live => rw [if_neg live,run]

theorem restJobs_more {r : Mem} (k : Nat) (run : restJobs clear turns prev cur mem = .ok r) : restJobs clear (turns + k) prev cur mem = .ok r := by
  induction turns generalizing prev cur mem with
  | zero => cases run
  | succ turns ih =>
    rw [Nat.add_right_comm]
    rw [restJobs] at run ⊢
    split at run
    next isNull => rw [if_pos isNull,run]
    next ne =>
      rw [if_neg ne]
      refine bind_more run fun mem run => bind_more run fun node run => ?_
      simp only at run ⊢
      split at run
      next isNull =>
        rw [if_pos isNull]
        refine bind_more run fun mem run => bind_more run fun mem run => bind_more run fun mem run => bind_more run fun node run => ?_
        split at run
        next some' =>
          rw [if_pos some']
          exact bind_more run fun node => ih
        next none =>
          rw [if_neg none]
          exact ih run
      next live =>
        rw [if_neg live]
        exact ih run

theorem clearJobList_more {r : Nat × Mem} (k : Nat) (run : clearJobList clear turns cur mem = .ok r) : clearJobList clear (turns + k) cur mem = .ok r := by
  rw [clearJobList] at run ⊢
  split at run
  next isNull => rw [if_pos isNull,run]
  next ne =>
    rw [if_neg ne]
    cases first : firstJob clear turns cur mem with
    | error e =>
      rw [first] at run
      cases run
    | ok found =>
      rw [first,ok_bind] at run
      rw [firstJob_more k first,ok_bind]
      simp only at run ⊢
      split at run
      next some' =>
        rw [if_pos some']
        refine bind_more run fun node run => ?_
        cases rest : restJobs clear turns found.1 node.2 found.2 with
        | error e =>
          rw [rest] at run
          cases run
        | ok mem' =>
          rw [rest] at run
          rw [restJobs_more k rest]
          exact run
      next isNull => rw [if_neg isNull,run]

/-- The jobs with processes that are not gone are left, in order and with these processes, exactly the blocks of the others and the processes that are
    gone have been freed, and nothing else has changed. -/
structure JobsFiltered (pstat : Int → Option ProcState) (cells : List JobCell) (mem : Mem) (newHead : Nat) (mem' : Mem) : Prop where
  jobs : Jobs mem' newHead ((cells.filter fun c => !c.dead pstat).map (JobCell.clean pstat))
  freed : ∀ a, mem' a = none ↔ mem a = none ∨ ∃ c ∈ cells, a ∈ c.garbage pstat
  same : ∀ a, a ∉ cells.flatMap JobCell.blocks → mem' a = mem a

theorem JobCell.Stored.unique {c' : JobCell} (stored : c.Stored mem) (stored' : c'.Stored mem) (same : c.node = c'.node) : c = c' := by
  obtain ⟨addr,text,id,processes,jobInFd,type,cmd⟩ := c
  obtain ⟨addr',text',id',processes',jobInFd',type',cmd'⟩ := c'
  simp only [node,fields,Prod.mk.injEq,JobFields.mk.injEq] at same
  obtain ⟨rfl,rfl,heads,rfl,rfl,rfl⟩ := same
  have chain : Chain (processAt mem) (first processes) processes := stored.processes
  have chain' : Chain (processAt mem) (first processes') processes' := stored'.processes
  obtain rfl : processes = processes' := chain.unique (heads ▸ chain')
  have texts := stored.text.symm.trans stored'.text
  simp only [Option.some.injEq,Node.text.injEq] at texts
  rw [show cmd = cmd' from texts]

theorem Listed.unique {head : Nat} {cells' : List JobCell} (listed : Listed mem head cells) (listed' : Listed mem head cells') : cells = cells' := by
  have nodes := listed.list.unique listed'.list
  have stored := listed.stored
  have stored' := listed'.stored
  clear listed listed'
  induction cells generalizing cells' with
  | nil => exact (map_eq_nil_iff.mp nodes.symm).symm
  | cons c cells ih =>
    cases cells' with
    | nil => cases nodes
    | cons c' cells' =>
      rw [map_cons,map_cons,cons.injEq] at nodes
      rw [forall_mem_cons] at stored stored'
      rw [stored.1.unique stored'.1 nodes.1,ih nodes.2 stored.2 stored'.2]

theorem blocks_sublist (cells : List JobCell) :
    (((cells.filter fun c => !c.dead pstat).map (clean pstat)).flatMap blocks).Sublist (cells.flatMap blocks) := by
  induction cells with
  | nil => exact .slnil
  | cons c cells ih =>
    cases dead : c.dead pstat with
    | true => simpa [dead] using ih.trans (sublist_append_right _ _)
    | false =>
      simp only [dead,filter_cons,Bool.not_false,if_true,map_cons,flatMap_cons]
      refine List.Sublist.append ?_ ih
      exact ((filter_sublist.map _).cons_cons _).cons_cons _

theorem Jobs.same_cell {head a : Nat} {x y : JobCell} (jobs : Jobs mem head cells) (inX : x ∈ cells) (inY : y ∈ cells) (ofX : a ∈ x.blocks)
    (ofY : a ∈ y.blocks) : x = y := by
  by_contra other
  have apart := (nodup_flatMap.mp jobs.nodup).2
  have symm : Std.Symm (onFun List.Disjoint blocks) := ⟨fun _ _ => List.Disjoint.symm⟩
  exact apart.forall inX inY other ofX ofY

theorem garbage_clean (live : c.dead pstat = false) (isClean : c.clean pstat = c) : c.garbage pstat = [] := by
  have all := congrArg (fun x : JobCell => x.job.processes) isClean
  simp only [clean,filter_eq_self] at all
  rw [garbage_live live,addrs,map_eq_nil_iff,filter_eq_nil_iff]
  simpa using all

/-- Cleaning returns and is a filter exactly if after the first job that is kept each job that is deleted is the last one, or is followed by a job all of
    whose processes are there, and this by none or by a job that is kept. -/
theorem jobs_filtered_iff {head : Nat} (jobs : Jobs mem head cells) (filters : ∀ c ∈ cells, Filters pstat clear (c.job.processes.map Prod.snd)) :
    (∃ turns newHead mem', clearJobList clear turns head mem = .ok (newHead,mem') ∧ JobsFiltered pstat cells mem newHead mem') ↔
      Spaced true (JobCell.dead pstat) (JobCell.clean pstat) (cells.dropWhile (JobCell.dead pstat)) := by
  have nodup : (cells.map addr).Nodup := by
    have nodup := jobs.list.nodup
    rwa [addrs,map_map] at nodup
  have keeps : ∀ c : JobCell, (c.clean pstat).addr = c.addr := fun _ => rfl
  obtain ⟨newHead,mem',run,listed,frees⟩ := clearJobList_spec jobs filters (Nat.lt_succ_self cells.length)
  constructor
  · rintro ⟨turns,newHead',mem'',run',filtered⟩
    have more := clearJobList_more (cells.length + 1) run'
    rw [Nat.add_comm,clearJobList_more turns run] at more
    cases more
    refine (swept_iff keeps nodup).mp ⟨.inl rfl,listed.unique filtered.jobs.toListed,fun c member dead => (swept_visited dead).mpr ?_⟩
    have isGarbage : c.addr ∈ c.garbage pstat := by
      rw [garbage,if_pos dead]
      exact mem_cons_self ..
    have freed : c.addr ∈ (visited (JobCell.dead pstat) cells).flatMap (garbage pstat) := by
      by_contra notFreed
      obtain ⟨-,next,here⟩ := jobs.list.data (mem_map_of_mem member)
      have still := frees.isSome (isSome_of_jobAt here) notFreed
      rw [show c.node.1 = c.addr from rfl,(filtered.freed c.addr).mpr (.inr ⟨c,member,isGarbage⟩)] at still
      cases still
    obtain ⟨y,seen,ofY⟩ := mem_flatMap.mp freed
    rw [jobs.same_cell member (visited_mem seen) (garbage_blocks isGarbage) (garbage_blocks ofY)]
    exact seen
  · intro spaced
    obtain ⟨-,isFilter,all⟩ := (swept_iff keeps nodup).mpr spaced
    refine ⟨_,newHead,mem',run,⟨isFilter ▸ listed,?_⟩,fun a => ?_,frees.same⟩
    · exact jobs.nodup.sublist (blocks_sublist cells)
    · by_cases freed : a ∈ (visited (JobCell.dead pstat) cells).flatMap (garbage pstat)
      · obtain ⟨y,seen,ofY⟩ := mem_flatMap.mp freed
        exact iff_of_true (frees.none a freed) (.inr ⟨y,visited_mem seen,ofY⟩)
      · rw [← Option.isNone_iff_eq_none,← Option.isNone_iff_eq_none,← Option.not_isSome,← Option.not_isSome,frees.some a freed]
        refine (or_iff_left ?_).symm
        rintro ⟨c,member,isGarbage⟩
        have unseen : c ∉ visited (JobCell.dead pstat) cells := fun seen => freed (mem_flatMap.mpr ⟨c,seen,isGarbage⟩)
        cases dead : c.dead pstat with
        | true => exact unseen ((swept_visited dead).mp (all c member dead))
        | false =>
          rw [garbage_clean dead ((spaced_visited spaced c member).resolve_left unseen)] at isGarbage
          cases isGarbage

end

/-- The jobs 1 and up, the first at the address 100, each with one process that has the number of the job for its pid. -/
def jobList (n : Nat) : Mem := fun a =>
  if 100 ≤ a ∧ a < 100 * (n + 1) then
    if a % 100 = 0 then some (.job ⟨UInt32.ofNat (a / 100),a + 16,3,.background,a + 8⟩ (if a = 100 * n then 0 else a + 100))
    else if a % 100 = 8 then some (.text [108,115])
    else if a % 100 = 16 then some (.process (a / 100) 0)
    else none
  else none

def jobCell (i : Nat) : JobCell := ⟨100 * i,100 * i + 8,⟨UInt32.ofNat i,[(100 * i + 16,i)],3,.background,[108,115]⟩⟩

theorem jobs_filtered_two : ∃ turns newHead mem', clearJobList (clearZombieProcesses (running [1]) 2) turns 100 (jobList 2) = .ok (newHead,mem') ∧
    JobsFiltered (running [1]) [jobCell 1,jobCell 2] (jobList 2) newHead mem' := by
  have jobs : Jobs (jobList 2) 100 [jobCell 1,jobCell 2] := by
    refine ⟨⟨⟨rfl,by decide,200,rfl,rfl,by decide,0,rfl,rfl⟩,?_⟩,by decide⟩
    intro c member
    simp only [mem_cons,not_mem_nil,or_false] at member
    rcases member with rfl | rfl
    · exact ⟨⟨rfl,by decide,0,rfl,rfl⟩,by decide,rfl⟩
    · exact ⟨⟨rfl,by decide,0,rfl,rfl⟩,by decide,rfl⟩
  have filters : ∀ c ∈ [jobCell 1,jobCell 2], Filters (running [1]) (clearZombieProcesses (running [1]) 2) (c.job.processes.map Prod.snd) := by
    intro c member
    simp only [mem_cons,not_mem_nil,or_false] at member
    rcases member with rfl | rfl
    · exact filters_of_spaced (by decide) (by simp [jobCell,Spaced,gone,running])
    · exact filters_of_spaced (by decide) (by simp [jobCell,Spaced,gone,running])
  refine (jobs_filtered_iff jobs filters).mpr ?_
  simp [Spaced,Followed,JobCell.dead,Job.dead,jobCell,goneNode,gone,running]

/-- Of four jobs the second and the fourth are deleted, and the third gets lost with its process: it is not in the list, and it is not freed. -/
theorem jobs_lost : ∃ mem', clearJobList (clearZombieProcesses (running [1,3]) 2) 5 100 (jobList 4) = .ok (100,mem') ∧
    jobAt mem' 100 = some (⟨1,116,3,.background,108⟩,0) ∧ jobAt mem' 300 = some (⟨3,316,3,.background,308⟩,400) ∧
    processAt mem' 316 = some (3,0) := by
  exact ⟨_,rfl,rfl,rfl,rfl⟩

end Osce.Sh.Nodes
