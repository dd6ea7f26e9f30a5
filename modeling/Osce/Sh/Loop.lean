import Osce.Sh.Jobs

/-!
Which lines the shell survives.
-/
namespace Osce.Sh

variable {α β : Type} {gone : α → Bool}

/-- The nodes after the first that the second loop looks at. -/
def lookedRest (gone : β → Bool) : List β → List β
  | [] => []
  | [p] => [p]
  | p :: next :: rest => if gone p then p :: lookedRest gone rest else p :: lookedRest gone (next :: rest)

/-- The nodes that the second loop leaves after `passed`. -/
def leftRest (gone : β → Bool) : List β → List β → List β
  | passed, [] => passed
  | passed, [p] => if gone p then [] else passed ++ [p]
  | passed, p :: next :: rest => if gone p then leftRest gone [next] rest else passed ++ p :: leftRest gone [] (next :: rest)

def endsGone (gone : β → Bool) : List β → Bool
  | [] => false
  | [p] => gone p
  | p :: next :: rest => if gone p then endsGone gone rest else endsGone gone (next :: rest)

/-- What one of the loops does after the first node that is not gone. -/
def afterFirst (gone : β → Bool) (rest : List β → List β) (nodes : List β) : List β :=
  match nodes.dropWhile gone with
  | [] => []
  | head :: tail => head :: rest tail

def left (gone : β → Bool) : List β → List β := afterFirst gone (leftRest gone [])

/-- The nodes that cleaning looks at, from the first that is not gone. -/
def looked (gone : β → Bool) : List β → List β := afterFirst gone (lookedRest gone)

def falls (gone : β → Bool) (nodes : List β) : Bool := endsGone gone (nodes.dropWhile gone).tail

theorem clearRest_eq (passed nodes : List α) :
    clearRest gone passed nodes = if endsGone gone nodes then .error .fault else .ok (leftRest gone passed nodes) := by
  fun_induction clearRest gone passed nodes with
  | case1 passed => simp [endsGone,leftRest]
  | case2 passed p isGone => simp [endsGone,isGone]
  | case3 passed p isLive => simp [endsGone,leftRest,isLive]
  | case4 passed p next rest isGone ih => simp [endsGone,leftRest,isGone,ih]
  | case5 passed p next rest isLive ih =>
    simp only [endsGone,leftRest,isLive,Bool.false_eq_true,if_false,ih]
    cases endsGone gone (next :: rest) <;> rfl

theorem clearZombieProcesses_eq (nodes : List α) :
    clearZombieProcesses gone nodes = if falls gone nodes then .error .fault else .ok (left gone nodes) := by
  rw [clearZombieProcesses,falls,left,afterFirst]
  cases nodes.dropWhile gone with
  | nil => rfl
  | cons head rest =>
    cases ends : endsGone gone rest <;> simp [clearRest_eq,ends]

theorem left_isEmpty (nodes : List α) : (left gone nodes).isEmpty = nodes.all gone := by
  rw [left,afterFirst]
  cases live : nodes.dropWhile gone with
  | nil => simpa [List.dropWhile_eq_nil_iff] using live
  | cons head rest =>
    have notGone := List.dropWhile_get_zero_not gone nodes (by simp [live])
    symm
    rw [List.isEmpty_cons,List.all_eq_false]
    refine ⟨head,(List.dropWhile_sublist gone).mem (by simp [live]),?_⟩
    simpa [live] using notGone

def Job.dead (gone : α → Bool) (job : Job α) : Bool := job.processes.all gone

structure Shape where
  id : UInt32
  jobInFd : Nat
  type : JobType

def Job.shape (job : Job α) : Shape := ⟨job.id,job.jobInFd,job.type⟩

theorem dead_of_left (gone : α → Bool) (job : Job α) : (left gone job.processes).isEmpty = job.dead gone := left_isEmpty _

theorem falls_dead {job : Job α} (dead : job.dead gone = true) : falls gone job.processes = false := by
  have none : job.processes.dropWhile gone = [] := by simpa [Job.dead,List.dropWhile_eq_nil_iff] using dead
  simp [falls,none,endsGone]

theorem clearProcesses_dead {job : Job α} (dead : job.dead gone = true) : clearZombieProcesses gone job.processes = .ok [] := by
  have none : left gone job.processes = [] := by simpa [dead] using dead_of_left gone job
  rw [clearZombieProcesses_eq,falls_dead dead,none]
  rfl

theorem clearProcesses_live {job : Job α} (live : job.dead gone = false) (stays : falls gone job.processes = false) :
    ∃ processes, clearZombieProcesses gone job.processes = .ok processes ∧ processes ≠ [] := by
  refine ⟨left gone job.processes,?_,List.isEmpty_eq_false_iff.mp ((dead_of_left gone job).trans live)⟩
  rw [clearZombieProcesses_eq,stays]
  rfl

theorem clearProcesses_falls {job : Job α} (fall : falls gone job.processes = true) : clearZombieProcesses gone job.processes = .error .fault := by
  rw [clearZombieProcesses_eq,fall]
  rfl

theorem clearJobsRest_ok (passed jobs : List (Job α)) (stay : ∀ job ∈ lookedRest (Job.dead gone) jobs, falls gone job.processes = false) :
    ∃ out, clearJobsRest gone passed jobs = .ok out ∧ out.map Job.shape = (leftRest (Job.dead gone) passed jobs).map Job.shape := by
  fun_induction lookedRest (Job.dead gone) jobs generalizing passed with
  | case1 => exact ⟨passed,by simp [clearJobsRest,leftRest]⟩
  | case2 job =>
    rw [clearJobsRest,leftRest]
    cases dead : job.dead gone with
    | true => exact ⟨[],by simp [clearProcesses_dead dead]⟩
    | false =>
      obtain ⟨processes,cleared,some⟩ := clearProcesses_live dead (stay job (by simp))
      exact ⟨passed ++ [{ job with processes }],by simp [cleared,some,Job.shape]⟩
  | case3 job next rest dead ih =>
    obtain ⟨out,run,same⟩ := ih [next] fun job mem => stay job (by simp [mem])
    refine ⟨out,?_,by rw [leftRest,if_pos dead,same]⟩
    simp [clearJobsRest,clearProcesses_dead dead,run]
  | case4 job next rest live ih =>
    rw [Bool.not_eq_true] at live
    obtain ⟨processes,cleared,some⟩ := clearProcesses_live live (stay job (by simp))
    obtain ⟨out,run,same⟩ := ih [] fun job mem => stay job (by simp [mem])
    refine ⟨passed ++ { job with processes } :: out,?_,by simp [leftRest,live,same,Job.shape]⟩
    simp [clearJobsRest,cleared,some,run]

theorem clearJobsRest_fault (passed jobs : List (Job α)) {bad : Job α} (mem : bad ∈ lookedRest (Job.dead gone) jobs)
    (fall : falls gone bad.processes = true) : clearJobsRest gone passed jobs = .error .fault := by
  fun_induction lookedRest (Job.dead gone) jobs generalizing passed with
  | case1 => simp at mem
  | case2 job =>
    rw [List.mem_singleton.mp mem] at fall
    simp [clearJobsRest,clearProcesses_falls fall]
  | case3 job next rest dead ih =>
    have later : bad ∈ lookedRest (Job.dead gone) rest := by
      refine (List.mem_cons.mp mem).resolve_left ?_
      rintro rfl
      simp [falls_dead dead] at fall
    simp [clearJobsRest,clearProcesses_dead dead,ih [next] later]
  | case4 job next rest live ih =>
    rw [Bool.not_eq_true] at live
    cases stays : falls gone job.processes with
    | true => simp [clearJobsRest,clearProcesses_falls stays]
    | false =>
      obtain ⟨processes,cleared,some⟩ := clearProcesses_live live stays
      have later : bad ∈ lookedRest (Job.dead gone) (next :: rest) := by
        refine (List.mem_cons.mp mem).resolve_left ?_
        rintro rfl
        simp [stays] at fall
      simp [clearJobsRest,cleared,some,ih [] later]

theorem clearJobList_ok (jobs : List (Job α)) (stay : ∀ job ∈ looked (Job.dead gone) jobs, falls gone job.processes = false) :
    ∃ out, clearJobList gone jobs = .ok out ∧ out.map Job.shape = (left (Job.dead gone) jobs).map Job.shape := by
  induction jobs with
  | nil => exact ⟨[],by simp [clearJobList,left,afterFirst]⟩
  | cons job rest ih =>
    cases dead : job.dead gone with
    | true =>
      obtain ⟨out,run,same⟩ := ih (by simpa [looked,afterFirst,dead] using stay)
      refine ⟨out,?_,by simpa [left,afterFirst,dead] using same⟩
      simp [clearJobList,clearProcesses_dead dead,run]
    | false =>
      simp only [looked,left,afterFirst,List.dropWhile_cons,dead,Bool.false_eq_true,if_false] at stay ⊢
      obtain ⟨processes,cleared,some⟩ := clearProcesses_live dead (stay job (by simp))
      obtain ⟨out,run,same⟩ := clearJobsRest_ok [] rest fun job mem => stay job (by simp [mem])
      refine ⟨{ job with processes } :: out,?_,by simp [same,Job.shape]⟩
      simp [clearJobList,cleared,some,run]

theorem clearJobList_fault (jobs : List (Job α)) {bad : Job α} (mem : bad ∈ looked (Job.dead gone) jobs)
    (fall : falls gone bad.processes = true) : clearJobList gone jobs = .error .fault := by
  induction jobs with
  | nil => simp [looked,afterFirst] at mem
  | cons job rest ih =>
    cases dead : job.dead gone with
    | true =>
      have later := ih (by simpa [looked,afterFirst,dead] using mem)
      simp [clearJobList,clearProcesses_dead dead,later]
    | false =>
      simp only [looked,afterFirst,List.dropWhile_cons,dead,Bool.false_eq_true,if_false] at mem
      cases stays : falls gone job.processes with
      | true => simp [clearJobList,clearProcesses_falls stays]
      | false =>
        obtain ⟨processes,cleared,some⟩ := clearProcesses_live dead stays
        have later : bad ∈ lookedRest (Job.dead gone) rest := by
          refine (List.mem_cons.mp mem).resolve_left ?_
          rintro rfl
          simp [stays] at fall
        simp [clearJobList,cleared,some,clearJobsRest_fault [] rest later fall]

theorem shape_answered (jobs : List (Job (Int × Bool))) : (answered jobs).map Job.shape = jobs.map Job.shape := by
  simp [answered,Job.shape]

def Pipes (fds : Finset Nat) : Prop := ∃ fd0 fd1 open', pipe fds = some (fd0,fd1,open') ∧ (pipe open').isSome

def remaining (w : World) (st : Shell) : List Shape := (left (Job.dead Prod.snd) (asked w.gone st.jobs)).map Job.shape

/-- No list of processes that is cleaned ends with one to unlink. -/
def Stays (w : World) (st : Shell) : Prop := ∀ job ∈ looked (Job.dead Prod.snd) (asked w.gone st.jobs), falls Prod.snd job.processes = false

variable {w : World} {st : Shell} {line : List UInt8}

theorem iteration_stays {buf : List UInt8} (some : str buf ≠ []) (stays : Stays w st) :
    ∃ out, out.map Job.shape = remaining w st ∧ iteration w st buf = (command w { st with jobs := answered out } (str buf)).map .some := by
  obtain ⟨out,cleared,same⟩ := clearJobList_ok _ stays
  refine ⟨out,same,?_⟩
  rw [iteration,if_neg some,cleared,ok_bind]
  cases command w { st with jobs := answered out } (str buf) <;> rfl

theorem iteration_falls {buf : List UInt8} (some : str buf ≠ []) (falls : ¬Stays w st) : iteration w st buf = .error .fault := by
  rw [Stays] at falls
  push Not at falls
  obtain ⟨bad,mem,fall⟩ := falls
  rw [iteration,if_neg some,clearJobList_fault _ mem (by simpa using fall)]
  rfl

theorem iteration_inv {buf : List UInt8} {st' : Shell} (run : iteration w st buf = .ok (some st')) :
    str buf ≠ [] ∧ Stays w st ∧ ∃ out, out.map Job.shape = remaining w st ∧ command w { st with jobs := answered out } (str buf) = .ok st' := by
  have some : str buf ≠ [] := by
    intro none
    rw [iteration,if_pos none] at run
    cases run
  have stays : Stays w st := by
    by_contra falls
    rw [iteration_falls some falls] at run
    cases run
  obtain ⟨out,same,eq⟩ := iteration_stays some stays
  refine ⟨some,stays,out,same,?_⟩
  rw [eq] at run
  cases done : command w { st with jobs := answered out } (str buf) with
  | error e =>
    rw [done] at run
    cases run
  | ok next =>
    rw [done] at run
    cases run
    rfl

def start : Shell := ⟨[],0,{0,1,2}⟩

def quiet : World := ⟨fun _ _ => false,4096,true,[]⟩

end Osce.Sh
