import Osce.Sh.Loop

/-!
The descriptors of the shell over whole runs.
-/
namespace Osce.Sh
open List

variable {β : Type} {gone : β → Bool}

theorem leftRest_sublist (gone : β → Bool) (passed nodes : List β) : (leftRest gone passed nodes).Sublist (passed ++ nodes) := by
  fun_induction leftRest gone passed nodes with
  | case1 passed => simp
  | case2 passed p _ => simp
  | case3 passed p _ => simp
  | case4 passed p next rest _ ih => exact ih.trans (by simp)
  | case5 passed p next rest _ ih => exact (ih.cons_cons p).append_left passed

theorem leftRest_live (passed nodes : List β) (live : ∀ p ∈ nodes, gone p = false) : leftRest gone passed nodes = passed ++ nodes := by
  fun_induction leftRest gone passed nodes with
  | case1 passed => simp
  | case2 passed p isGone => simp [isGone] at live
  | case3 passed p _ => rfl
  | case4 passed p next rest isGone _ => simp [isGone] at live
  | case5 passed p next rest _ ih => rw [ih fun q mem => live q (by simp [mem]),nil_append]

theorem leftRest_shorter (passed nodes : List β) {p : β} (mem : p ∈ nodes) (isGone : gone p = true) :
    (leftRest gone passed nodes).length < (passed ++ nodes).length := by
  fun_induction leftRest gone passed nodes with
  | case1 passed => simp at mem
  | case2 passed q _ => simp
  | case3 passed q live =>
    rw [mem_singleton.mp mem] at isGone
    exact absurd isGone live
  | case4 passed q next rest _ ih =>
    have shorter := (leftRest_sublist gone [next] rest).length_le
    simp at shorter ⊢
    omega
  | case5 passed q next rest live ih =>
    have later := ih ((mem_cons.mp mem).resolve_left (by rintro rfl; exact live isGone))
    simp at later ⊢
    omega

theorem left_sublist (nodes : List β) : (left gone nodes).Sublist nodes := by
  rw [left,afterFirst]
  cases rest : nodes.dropWhile gone with
  | nil => exact nil_sublist _
  | cons head tail =>
    have within := (leftRest_sublist gone [] tail).cons_cons head
    exact (within.trans (by rw [nil_append,← rest])).trans (dropWhile_sublist gone)

theorem left_length_eq_iff (nodes : List β) : (left gone nodes).length = nodes.length ↔ ∀ p ∈ nodes, gone p = false := by
  cases nodes with
  | nil => simp [left,afterFirst]
  | cons head tail =>
    cases first : gone head with
    | true =>
      have shorter : (left gone (head :: tail)).length ≤ tail.length := by
        have same : left gone (head :: tail) = left gone tail := by simp [left,afterFirst,first]
        rw [same]
        exact (left_sublist tail).length_le
      simp [first]
      omega
    | false =>
      have split : left gone (head :: tail) = head :: leftRest gone [] tail := by simp [left,afterFirst,first]
      rw [split,forall_mem_cons]
      constructor
      · intro same
        refine ⟨first,fun p mem => ?_⟩
        by_contra isGone
        have shorter := leftRest_shorter [] tail mem (Bool.not_eq_false _ ▸ isGone)
        simp at same shorter
        omega
      · rintro ⟨-,live⟩
        rw [leftRest_live [] tail live]
        rfl

theorem fdalloc_some {fds : Finset Nat} {fd : Nat} (found : fdalloc fds = some fd) : fd ∉ fds := by
  simpa using find?_some found

theorem fdalloc_free (fds : Finset Nat) (few : fds.card < NOFILE) : ∃ fd, fdalloc fds = some fd := by
  refine Option.isSome_iff_exists.mp ?_
  rw [fdalloc,find?_isSome]
  by_contra! full
  have all : Finset.range NOFILE ⊆ fds := fun fd mem => by simpa using full fd (by simpa using mem)
  have := Finset.card_le_card all
  rw [Finset.card_range] at this
  omega

theorem pipe_some {fds fds' : Finset Nat} {fd0 fd1 : Nat} (found : pipe fds = some (fd0,fd1,fds')) :
    fd0 ∉ fds ∧ fd1 ∉ insert fd0 fds ∧ fds' = insert fd1 (insert fd0 fds) := by
  rw [pipe] at found
  simp only [Option.bind_eq_bind,Option.bind_eq_some_iff,Option.pure_def,Option.some.injEq,Prod.mk.injEq] at found
  obtain ⟨a,first,b,second,rfl,rfl,rfl⟩ := found
  exact ⟨fdalloc_some first,fdalloc_some second,rfl⟩

theorem pipe_free (fds : Finset Nat) (few : fds.card + 2 ≤ NOFILE) : ∃ fd0 fd1 fds', pipe fds = some (fd0,fd1,fds') ∧ fds'.card = fds.card + 2 := by
  obtain ⟨fd0,first⟩ := fdalloc_free fds (by omega)
  have grown := Finset.card_insert_of_notMem (fdalloc_some first)
  obtain ⟨fd1,second⟩ := fdalloc_free (insert fd0 fds) (by omega)
  refine ⟨fd0,fd1,insert fd1 (insert fd0 fds),by simp [pipe,first,second],?_⟩
  rw [Finset.card_insert_of_notMem (fdalloc_some second),grown]

theorem pipes_free {fds : Finset Nat} (few : fds.card + 4 ≤ NOFILE) : Pipes fds := by
  obtain ⟨fd0,fd1,fds',first,grown⟩ := pipe_free fds (by omega)
  obtain ⟨fd2,fd3,fds'',second,-⟩ := pipe_free fds' (by omega)
  exact ⟨fd0,fd1,fds',first,by simp [second]⟩

def Shell.inputs (st : Shell) : List Nat := st.jobs.map Job.jobInFd

variable {w : World} {st st' : Shell} {line buf : List UInt8}

theorem addProcesses_jobInFd (reads : List (List UInt8)) (job : Job Int) :
    (reads.foldl (fun job bytes => addProcessToJob job (recievedPid bytes)) job).jobInFd = job.jobInFd := by
  induction reads generalizing job with
  | nil => rfl
  | cons bytes reads ih => exact ih _

theorem startJob_fds (run : startJob w st line = .ok st') :
    ∃ fd, fd ∉ st.fds ∧ st'.fds = insert fd st.fds ∧ st'.inputs = fd :: st.inputs := by
  rw [startJob] at run
  cases first : pipe st.fds with
  | none => simp [first] at run
  | some ends =>
    obtain ⟨pids0,pids1,fds⟩ := ends
    cases second : pipe fds with
    | none => simp [first,second] at run
    | some ends =>
      obtain ⟨in0,in1,fds'⟩ := ends
      cases job : getJob (st.jobCount + 1) in1 line w.room with
      | error e => simp [first,second,job] at run
      | ok job' =>
        cases parsed : parsecmd line with
        | error e => simp [first,second,job,parsed] at run
        | ok cmd =>
          have fd : job'.jobInFd = in1 := by
            rw [getJob] at job
            split at job <;> cases job
            rfl
          cases forks : w.forks with
          | false => simp [first,second,job,parsed,forks] at run
          | true =>
            obtain ⟨new0,new1,rfl⟩ := pipe_some first
            obtain ⟨new2,new3,rfl⟩ := pipe_some second
            simp only [first,second,job,parsed,forks,Option.elim_some,ok_bind,if_true,pure_ok,Except.ok.injEq] at run
            subst run
            refine ⟨in1,by simp at new3; tauto,?_,by simp [Shell.inputs,addProcesses_jobInFd,fd]⟩
            ext x
            simp only [Finset.mem_erase,Finset.mem_insert,not_or] at new0 new1 new2 new3 ⊢
            grind

theorem foreground_inputs (test : Job Int → Bool) (jobs : List (Job Int)) : (foreground test jobs).map Job.jobInFd = jobs.map Job.jobInFd := by
  fun_induction foreground test jobs <;> simp_all

theorem command_fds (run : command w st line = .ok st') :
    (st'.fds = st.fds ∧ st'.inputs = st.inputs) ∨ ∃ fd, fd ∉ st.fds ∧ st'.fds = insert fd st.fds ∧ st'.inputs = fd :: st.inputs := by
  rw [command] at run
  split_ifs at run
  · cases run
    exact .inl ⟨rfl,rfl⟩
  · cases run
    exact .inl ⟨rfl,rfl⟩
  · cases run
    exact .inl ⟨rfl,rfl⟩
  · cases run
    exact .inl ⟨rfl,foreground_inputs _ _⟩
  · cases run
    exact .inl ⟨rfl,foreground_inputs _ _⟩
  · exact .inr (startJob_fds run)

def AllLive (w : World) (st : Shell) : Prop := ∀ job ∈ asked w.gone st.jobs, job.dead Prod.snd = false

theorem asked_inputs (gone : Nat → Nat → Bool) (jobs : List (Job Int)) : (asked gone jobs).map Job.jobInFd = jobs.map Job.jobInFd := by
  exact ext_getElem (by simp [asked]) (by simp [asked])

def keptInputs (w : World) (st : Shell) : List Nat := (remaining w st).map Shape.jobInFd

theorem keptInputs_eq : keptInputs w st = (left (Job.dead Prod.snd) (asked w.gone st.jobs)).map Job.jobInFd := by
  rw [keptInputs,remaining,map_map]
  rfl

theorem keptInputs_sublist (w : World) (st : Shell) : (keptInputs w st).Sublist st.inputs := by
  rw [keptInputs_eq,Shell.inputs,← asked_inputs w.gone]
  exact (left_sublist _).map _

theorem keptInputs_length : (keptInputs w st).length = st.inputs.length ↔ AllLive w st := by
  rw [keptInputs_eq,Shell.inputs,← asked_inputs w.gone,length_map,length_map]
  exact left_length_eq_iff _

theorem iteration_fds (run : iteration w st buf = .ok (some st')) :
    (st'.fds = st.fds ∧ st'.inputs = keptInputs w st) ∨
      ∃ fd, fd ∉ st.fds ∧ st'.fds = insert fd st.fds ∧ st'.inputs = fd :: keptInputs w st := by
  obtain ⟨-,-,out,same,ran⟩ := iteration_inv run
  have kept : Shell.inputs { st with jobs := answered out } = keptInputs w st := by
    rw [keptInputs,← same,Shell.inputs,← shape_answered,map_map]
    rfl
  rw [← kept]
  exact command_fds ran

/-- The loop of `main` over several lines. -/
def run : Shell → List (World × List UInt8) → Except Err (Option Shell)
  | st, [] => .ok (some st)
  | st, (w,buf) :: rest => do
    match ← iteration w st buf with
    | none => pure none
    | some st => run st rest

def AllKept : Shell → List (World × List UInt8) → Prop
  | _, [] => True
  | st, (w,buf) :: rest => AllLive w st ∧ ∀ st', iteration w st buf = .ok (some st') → AllKept st' rest

/-- The standard descriptors and one for each job are open, and no others. -/
structure Exact (st : Shell) : Prop where
  fds : st.fds = {0,1,2} ∪ st.inputs.toFinset
  distinct : st.inputs.Nodup
  others : ∀ fd ∈ st.inputs, fd ∉ ({0,1,2} : Finset Nat)

structure Held (st : Shell) : Prop where
  standard : {0,1,2} ⊆ st.fds
  within : ∀ fd ∈ st.inputs, fd ∈ st.fds
  distinct : st.inputs.Nodup
  others : ∀ fd ∈ st.inputs, fd ∉ ({0,1,2} : Finset Nat)

theorem Held.subset (held : Held st) : {0,1,2} ∪ st.inputs.toFinset ⊆ st.fds :=
  Finset.union_subset held.standard fun fd mem => held.within fd (mem_toFinset.mp mem)

theorem Held.card (held : Held st) : ({0,1,2} ∪ st.inputs.toFinset : Finset Nat).card = 3 + st.inputs.length := by
  rw [Finset.card_union_of_disjoint,toFinset_card_of_nodup held.distinct]
  · rfl
  · exact Finset.disjoint_right.mpr fun fd mem => held.others fd (mem_toFinset.mp mem)

theorem Held.exact_iff (held : Held st) : Exact st ↔ st.fds.card = 3 + st.inputs.length := by
  constructor
  · intro exact
    rw [exact.fds,held.card]
  · intro count
    refine ⟨(Finset.eq_of_subset_of_card_le held.subset ?_).symm,held.distinct,held.others⟩
    rw [count,held.card]

theorem Held.step (held : Held st) (run : iteration w st buf = .ok (some st')) : Held st' := by
  have within : keptInputs w st ⊆ st.inputs := (keptInputs_sublist w st).subset
  have distinct := held.distinct.sublist (keptInputs_sublist w st)
  obtain ⟨fds,inputs⟩ | ⟨fd,new,fds,inputs⟩ := iteration_fds run
  · refine ⟨fds ▸ held.standard,?_,inputs ▸ distinct,?_⟩
    · rw [fds,inputs]
      exact fun fd mem => held.within fd (within mem)
    · rw [inputs]
      exact fun fd mem => held.others fd (within mem)
  · refine ⟨?_,?_,?_,?_⟩
    · rw [fds]
      exact held.standard.trans (Finset.subset_insert _ _)
    · rw [fds,inputs,forall_mem_cons]
      exact ⟨Finset.mem_insert_self _ _,fun other mem => Finset.mem_insert_of_mem (held.within other (within mem))⟩
    · rw [inputs,nodup_cons]
      exact ⟨fun mem => new (held.within fd (within mem)),distinct⟩
    · rw [inputs,forall_mem_cons]
      exact ⟨fun mem => new (held.standard mem),fun other mem => held.others other (within mem)⟩

/-- The descriptors that no job has any more are as many as before, or more if a job was removed. -/
theorem iteration_card (run : iteration w st buf = .ok (some st')) :
    st'.fds.card + (keptInputs w st).length = st.fds.card + st'.inputs.length := by
  obtain ⟨fds,inputs⟩ | ⟨fd,new,fds,inputs⟩ := iteration_fds run
  · rw [fds,inputs]
  · rw [fds,inputs,Finset.card_insert_of_notMem new,length_cons]
    omega

theorem run_card {inputs : List (World × List UInt8)} (held : Held st) (ran : run st inputs = .ok (some st')) :
    Held st' ∧ st.fds.card + st'.inputs.length ≤ st'.fds.card + st.inputs.length ∧
      (st.fds.card + st'.inputs.length = st'.fds.card + st.inputs.length ↔ AllKept st inputs) := by
  induction inputs generalizing st with
  | nil =>
    cases ran
    exact ⟨held,le_rfl,by simp [AllKept]⟩
  | cons step rest ih =>
    obtain ⟨w,buf⟩ := step
    rw [run] at ran
    cases done : iteration w st buf with
    | error e =>
      rw [done] at ran
      cases ran
    | ok next =>
      cases next with
      | none =>
        rw [done] at ran
        cases ran
      | some next =>
        rw [done] at ran
        obtain ⟨held',more,same⟩ := ih (held.step done) ran
        have count := iteration_card done
        have fewer := (keptInputs_sublist w st).length_le
        refine ⟨held',by omega,?_⟩
        have kept : AllKept st ((w,buf) :: rest) ↔ AllLive w st ∧ AllKept next rest := by simp [AllKept,done]
        rw [kept,← same,← keptInputs_length]
        omega

theorem held_start : Held start := ⟨subset_rfl,by simp [start,Shell.inputs],by simp [start,Shell.inputs],by simp [start,Shell.inputs]⟩

/-- The shell is about to read a line. Exactly if no job ever lost all its processes, it has its standard descriptors and one for each job,
    and then two pipes can be opened while there are fewer than NOFILE - 6 jobs. -/
theorem descriptors_exact (inputs : List (World × List UInt8)) (st : Shell) (reached : run start inputs = .ok (some st)) :
    (Exact st ↔ AllKept start inputs) ∧ (AllKept start inputs → st.jobs.length < NOFILE - 6 → Pipes st.fds) := by
  obtain ⟨held,-,same⟩ := run_card held_start reached
  have exact : Exact st ↔ AllKept start inputs := by
    have three : start.fds.card = 3 := rfl
    have none : start.inputs.length = 0 := rfl
    rw [held.exact_iff,← same,three,none]
    omega
  refine ⟨exact,fun kept few => pipes_free ?_⟩
  have count := held.exact_iff.mp (exact.mpr kept)
  rw [Shell.inputs,length_map] at count
  simp only [NOFILE] at few ⊢
  omega

def oneProcess : World := ⟨fun _ _ => false,4096,true,[[5]]⟩

theorem descriptors_exact_ls :
    (∃ st, run start [(oneProcess,[108,115,10])] = .ok (some st) ∧ (Exact st ↔ AllKept start [(oneProcess,[108,115,10])]) ∧
      (AllKept start [(oneProcess,[108,115,10])] → st.jobs.length < NOFILE - 6 → Pipes st.fds)) :=
  ⟨_,rfl,descriptors_exact _ _ rfl⟩

/-- The job of `ls` has ended when the next line is read. -/
theorem descriptor_stays_open :
    ∃ st, run start [(oneProcess,[108,115,10]),(⟨fun _ _ => true,4096,true,[]⟩,[106,111,98,115,10])] = .ok (some st) ∧ st.jobs = [] ∧ ¬Exact st := by
  refine ⟨_,rfl,rfl,fun exact => ?_⟩
  have fds := exact.fds
  revert fds
  decide

end Osce.Sh
