import Osce.Pipe.Fifo

/-!
Wakeups of a pipe. A process that sleeps although it could go on is one that the holder of
`p->lock` is about to wake.
-/
namespace Osce.Pipes
open Osce.Lib Function State
set_option linter.unusedSectionVars false

variable {P : Type} [DecidableEq P]

/-- The process wakes the readers before it gives up the lock. -/
def Pc.OwesRead : Pc → Prop
  | .write _ _ _ => True
  | .writeDone _ => True
  | .closing writable => writable = true
  | _ => False

/-- The process wakes the writers before it gives up the lock. -/
def Pc.OwesWrite : Pc → Prop
  | .copy _ _ => True
  | .closing writable => writable = false
  | _ => False

/-- The next turn of the process leaves `pipewrite` with -1. -/
def GivesUp (s : State P) (q : P) : Prop :=
  ∃ addr n i, s.pc q = .write addr n i ∧ (i : Int) < n ∧ s.pipe.full = true ∧ (s.pipe.readopen = false ∨ s.killed q = true)

/-- `pipewrite` returns -1 only when nobody waits for bytes. -/
def Attentive (s : State P) (a : Action P) : Prop := ∀ q, a = .turn q → GivesUp s q → ∀ r, ¬ (s.pc r).WaitsRead

/-- Who waits has reason to, or is about to be woken. -/
structure Awake (s : State P) : Prop where
  readers : ∀ q, (s.pc q).WaitsRead → s.pipe.empty = true ∧ s.pipe.writeopen = true ∨ ∃ h, s.lock = some h ∧ (s.pc h).OwesRead
  writers : ∀ q, (s.pc q).WaitsWrite → s.pipe.full = true ∧ s.pipe.readopen = true ∨ ∃ h, s.lock = some h ∧ (s.pc h).OwesWrite
  /-- Before `sleep` the pipe is still full. -/
  full : ∀ q addr n i, s.pc q = .writeFull addr n i → s.pipe.full = true ∧ s.pipe.readopen = true

section
variable {s s' : State P} {q : P} {a : Action P}

theorem Pc.WaitsRead.outside {pc : Pc} (waits : pc.WaitsRead) : ¬ pc.Inside := by cases pc <;> first | exact id | cases waits
theorem Pc.WaitsWrite.outside {pc : Pc} (waits : pc.WaitsWrite) : ¬ pc.Inside := by cases pc <;> first | exact id | cases waits
theorem Enters.awake {pc pc' : Pc} (enters : Enters pc pc') : ¬ pc.WaitsRead ∧ ¬ pc.WaitsWrite ∧ ∀ addr n i, pc' ≠ .writeFull addr n i := by
  cases enters <;> exact ⟨id,id,nofun⟩

theorem wakeRead_waits {pc : Pc} (waits : (wakeRead pc).WaitsRead) : pc.Falls := by cases pc <;> trivial
theorem wakeWrite_waits {pc : Pc} (waits : (wakeWrite pc).WaitsWrite) : pc.Falls := by cases pc <;> trivial
theorem wakeRead_other {pc : Pc} (waits : (wakeRead pc).WaitsWrite) : pc.WaitsWrite := by cases pc <;> exact waits
theorem wakeWrite_other {pc : Pc} (waits : (wakeWrite pc).WaitsRead) : pc.WaitsRead := by cases pc <;> exact waits

/-- While a process that owes nothing has the lock, the readers that wait have reason to. -/
theorem Awake.reader (awake : Awake s) (locked : Locked s) {pc : Pc} (here : s.pc q = pc) (inside : pc.Inside)
    (owes : ¬ pc.OwesRead) (r : P) (waits : (s.pc r).WaitsRead) : s.pipe.empty = true ∧ s.pipe.writeopen = true := by
  subst here
  rcases awake.readers r waits with reason | ⟨h,holder,owed⟩
  · exact reason
  · have same := locked.inside.alone inside ((locked.inside h).mpr holder)
    rw [same] at owed
    exact absurd owed owes

theorem Awake.writer (awake : Awake s) (locked : Locked s) {pc : Pc} (here : s.pc q = pc) (inside : pc.Inside)
    (owes : ¬ pc.OwesWrite) (r : P) (waits : (s.pc r).WaitsWrite) : s.pipe.full = true ∧ s.pipe.readopen = true := by
  subst here
  rcases awake.writers r waits with reason | ⟨h,holder,owed⟩
  · exact reason
  · have same := locked.inside.alone inside ((locked.inside h).mpr holder)
    rw [same] at owed
    exact absurd owed owes

theorem awake_inside (pc : Pc) (locked : Locked s') (at_ : s'.pc q = pc) (here : pc.Inside)
    (readers : ∀ r, r ≠ q → (s'.pc r).WaitsRead → s'.pipe.empty = true ∧ s'.pipe.writeopen = true ∨ pc.OwesRead)
    (writers : ∀ r, r ≠ q → (s'.pc r).WaitsWrite → s'.pipe.full = true ∧ s'.pipe.readopen = true ∨ pc.OwesWrite)
    (full : ∀ addr n i, pc = .writeFull addr n i → s'.pipe.full = true ∧ s'.pipe.readopen = true) : Awake s' := by
  subst at_
  have holder := (locked.inside q).mp here
  refine ⟨?_,?_,?_⟩
  · intro r waits
    have other : r ≠ q := by
      rintro rfl
      exact waits.outside here
    exact (readers r other waits).imp_right fun owes => ⟨q,holder,owes⟩
  · intro r waits
    have other : r ≠ q := by
      rintro rfl
      exact waits.outside here
    exact (writers r other waits).imp_right fun owes => ⟨q,holder,owes⟩
  · intro r addr n i there
    have same := locked.inside.alone (q := q) (r := r) here (by rw [there]; trivial)
    rw [same] at there
    exact full addr n i there

theorem awake_free (locked : Locked s') (free : s'.lock = none)
    (readers : ∀ r, (s'.pc r).WaitsRead → s'.pipe.empty = true ∧ s'.pipe.writeopen = true)
    (writers : ∀ r, (s'.pc r).WaitsWrite → s'.pipe.full = true ∧ s'.pipe.readopen = true) : Awake s' := by
  refine ⟨fun r waits => .inl (readers r waits),fun r waits => .inl (writers r waits),?_⟩
  intro r addr n i there
  have inside : (s'.pc r).Inside := by rw [there]; trivial
  have held := (locked.inside r).mp inside
  rw [free] at held
  cases held

theorem Awake.same (awake : Awake s) (locked : Locked s) (lock : s'.lock = s.lock) (pipe : s'.pipe = s.pipe)
    (kept : ∀ r, (s.pc r).Inside ∨ (s'.pc r).Inside → s'.pc r = s.pc r) (readers : ∀ r, (s'.pc r).WaitsRead → (s.pc r).WaitsRead)
    (writers : ∀ r, (s'.pc r).WaitsWrite → (s.pc r).WaitsWrite) : Awake s' := by
  refine ⟨?_,?_,?_⟩
  · intro r waits
    rw [pipe,lock]
    refine (awake.readers r (readers r waits)).imp_right ?_
    rintro ⟨h,holder,owes⟩
    exact ⟨h,holder,by rw [kept h (.inl ((locked.inside h).mpr holder))]; exact owes⟩
  · intro r waits
    rw [pipe,lock]
    refine (awake.writers r (writers r waits)).imp_right ?_
    rintro ⟨h,holder,owes⟩
    exact ⟨h,holder,by rw [kept h (.inl ((locked.inside h).mpr holder))]; exact owes⟩
  · intro r addr n i there
    rw [pipe]
    refine awake.full r addr n i ?_
    rw [← kept r (.inr (by rw [there]; trivial))]
    exact there

theorem outside_kept {pc : Pc} (was : ¬ (s.pc q).Inside) (outside : ¬ pc.Inside) (r : P)
    (there : (s.pc r).Inside ∨ (update s.pc q pc r).Inside) : update s.pc q pc r = s.pc r := by
  by_cases same : r = q
  · rw [same,update_self] at there
    exact absurd there (not_or.mpr ⟨was,outside⟩)
  · exact update_of_ne same _ _

theorem waits_kept {f : Pc → Prop} {pc : Pc} (here : f pc → f (s.pc q)) (r : P) (waits : f (update s.pc q pc r)) :
    f (s.pc r) := by
  by_cases same : r = q
  · rw [same,update_self] at waits
    rw [same]
    exact here waits
  · rwa [update_of_ne same] at waits

theorem Awake.leaves (awake : Awake s) (locked : Locked s) (locked' : Locked s') {pc : Pc} (here : s.pc q = pc) (inside : pc.Inside)
    (noRead : ¬ pc.OwesRead) (noWrite : ¬ pc.OwesWrite) (free : s'.lock = none) (pipe : s'.pipe = s.pipe)
    (moves : s'.pc = update s.pc q .outside) : Awake s' := by
  refine awake_free locked' free ?_ ?_ <;> rw [moves,pipe]
  · intro r waits
    exact awake.reader locked here inside noRead r (waits_kept (q := q) (fun h => h.elim) r waits)
  · intro r waits
    exact awake.writer locked here inside noWrite r (waits_kept (q := q) (fun h => h.elim) r waits)

theorem Awake.step (awake : Awake s) (locked : Locked s) (meets : Attentive s a) (moves : Moves s a s') : Awake s' := by
  have locked' := locked.step moves
  -- nobody is in `sleep` while `ptable.lock` is free
  have settled (free : s.table = none) {r : P} (falls : (s.pc r).Falls) : False := by
    have held := (locked.falls r).mp falls
    rw [free] at held
    cases held
  cases moves with
  | begins here wants =>
    obtain ⟨noRead,noWrite,_⟩ := wants.awake
    exact awake.same locked rfl rfl (outside_kept (by rw [here]; exact id) wants.inside.1)
      (waits_kept fun h => absurd h noRead) (waits_kept fun h => absurd h noWrite)
  | @kill q free =>
    refine awake.same locked rfl rfl ?_ ?_ ?_
    · intro r there
      by_cases same : r = q
      · subst same
        simp only [update_self,wakeWrite_inside,wakeRead_inside,or_self] at there ⊢
        exact wakes_kept _ ((wakeWrite_inside _).mpr ((wakeRead_inside _).mpr there))
      · exact update_of_ne same _ _
    · exact waits_kept fun h => (settled free (wakeRead_waits (wakeWrite_other h))).elim
    · exact waits_kept fun h => (settled free ((wakeRead_falls _).mp (wakeWrite_waits h))).elim
  | @acquires q pc enters free =>
    obtain ⟨_,inside,_⟩ := enters.inside
    have reason {A : Prop} {Q : Pc → Prop} (h : A ∨ ∃ h, s.lock = some h ∧ Q (s.pc h)) : A := by
      rcases h with reason | ⟨h,holder,_⟩
      · exact reason
      · rw [free] at holder
        cases holder
    refine awake_inside pc locked' (update_self _ _ _) inside ?_ ?_ ?_
    · intro r other waits
      exact .inl (reason (awake.readers r (by simpa [goto,other] using waits)))
    · intro r other waits
      exact .inl (reason (awake.writers r (by simpa [goto,other] using waits)))
    · intro addr n i same
      exact absurd same (enters.awake.2.2 addr n i)
  | @gives_up q addr n i here more full fails =>
    have nobody := meets q rfl ⟨addr,n,i,here,more,full,fails⟩
    refine awake_inside (.writeReturn (-1)) locked' (update_self _ _ _) trivial ?_ ?_ (by simp)
    · intro r other waits
      exact absurd (by simpa [goto,other] using waits) (nobody r)
    · intro r other waits
      exact .inl (awake.writer locked here trivial id r (by simpa [goto,other] using waits))
  | @fills q addr n i here full isOpen free =>
    refine awake_inside (q := q) (.writeFull addr n i) locked' (by simp) trivial ?_ ?_ fun _ _ _ _ => ⟨full,isOpen⟩
    · intro r other waits
      exact (settled free (wakeRead_waits (by simpa [other] using waits))).elim
    · intro r other waits
      exact .inl ⟨full,isOpen⟩
  | @puts q addr n i here room =>
    refine awake_inside (.write addr n (i + 1)) locked' (update_self _ _ _) trivial (fun _ _ _ => .inr trivial) ?_ (by simp)
    intro r other waits
    obtain ⟨full,_⟩ := awake.writer locked here trivial id r (by simpa [goto,other] using waits)
    rw [full] at room
    cases room
  | @done q addr n i here =>
    refine awake_inside (.writeDone n) locked' (update_self _ _ _) trivial (fun _ _ _ => .inr trivial) ?_ (by simp)
    intro r other waits
    exact .inl (awake.writer locked here trivial id r (by simpa [goto,other] using waits))
  | @write_falls q addr n i here free =>
    refine awake_free locked' rfl ?_ ?_
    · intro r waits
      exact awake.reader locked here trivial id r (waits_kept (q := q) (fun h => h.elim) r waits)
    · intro r waits
      exact awake.full q addr n i here
  | write_sleeps here =>
    exact awake.same locked rfl rfl (outside_kept (by rw [here]; exact id) id) (waits_kept fun h => h.elim)
      (waits_kept fun _ => by rw [here]; trivial)
  | @write_wakes q n here free =>
    refine awake_inside (q := q) (.writeReturn n) locked' (by simp) trivial ?_ ?_ (by simp)
    · intro r other waits
      exact (settled free (wakeRead_waits (by simpa [other] using waits))).elim
    · intro r other waits
      exact .inl (awake.writer locked here trivial id r (wakeRead_other (by simpa [other] using waits)))
  | write_returns here => exact awake.leaves locked locked' here trivial id id rfl rfl rfl
  | @read_killed q n here =>
    refine awake_inside (.readReturn n none) locked' (update_self _ _ _) trivial ?_ ?_ (by simp)
    · intro r other waits
      exact .inl (awake.reader locked here trivial id r (by simpa [goto,other] using waits))
    · intro r other waits
      exact .inl (awake.writer locked here trivial id r (by simpa [goto,other] using waits))
  | @read_falls q n here empty isOpen free =>
    refine awake_free locked' rfl ?_ ?_
    · intro r waits
      exact ⟨empty,isOpen⟩
    · intro r waits
      exact awake.writer locked here trivial id r (waits_kept (q := q) (fun h => h.elim) r waits)
  | read_sleeps here =>
    exact awake.same locked rfl rfl (outside_kept (by rw [here]; exact id) id) (waits_kept fun _ => by rw [here]; trivial)
      (waits_kept fun h => h.elim)
  | @copies q n here ready =>
    refine awake_inside (.copy n []) locked' (update_self _ _ _) trivial ?_ (fun _ _ _ => .inr trivial) (by simp)
    intro r other waits
    exact .inl (awake.reader locked here trivial id r (by simpa [goto,other] using waits))
  | @gets q n got here some =>
    refine awake_inside (.copy n (got ++ [s.pipe.get.1])) locked' (update_self _ _ _) trivial ?_ (fun _ _ _ => .inr trivial) (by simp)
    intro r other waits
    obtain ⟨empty,_⟩ := awake.reader locked here trivial id r (by simpa [goto,other] using waits)
    rw [empty] at some
    cases some
  | @read_wakes q n got here last free =>
    refine awake_inside (q := q) (.readReturn n (some got)) locked' (by simp) trivial ?_ ?_ (by simp)
    · intro r other waits
      exact .inl (awake.reader locked here trivial id r (wakeWrite_other (by simpa [other] using waits)))
    · intro r other waits
      exact (settled free (wakeWrite_waits (by simpa [other] using waits))).elim
  | read_returns here => exact awake.leaves locked locked' here trivial id id rfl rfl rfl
  | @closes q writable here =>
    refine awake_inside (.closing writable) locked' (update_self _ _ _) trivial ?_ ?_ (by simp)
    · intro r other waits
      have reason := awake.reader locked here trivial id r (by simpa [goto,other] using waits)
      cases writable
      · exact .inl reason
      · exact .inr rfl
    · intro r other waits
      have reason := awake.writer locked here trivial id r (by simpa [goto,other] using waits)
      cases writable
      · exact .inr rfl
      · exact .inl reason
  | @close_wakes q writable here free =>
    refine awake_inside (q := q) .closed locked' (by simp) trivial ?_ ?_ (by simp)
    · intro r other waits
      cases writable
      · exact .inl (awake.reader locked here trivial (by simp [Pc.OwesRead]) r (wakeWrite_other (by simpa [other] using waits)))
      · exact (settled free (wakeRead_waits (by simpa [other] using waits))).elim
    · intro r other waits
      cases writable
      · exact (settled free (wakeWrite_waits (by simpa [other] using waits))).elim
      · exact .inl (awake.writer locked here trivial (by simp [Pc.OwesWrite]) r (wakeRead_other (by simpa [other] using waits)))
  | close_returns here => exact awake.leaves locked locked' here trivial id id rfl rfl rfl

def Attended (data : Nat → UInt8) (killed : P → Bool) : State P → Prop :=
  Steps.Reachable step Attentive (State.init P data killed)

theorem Attended.awake {data : Nat → UInt8} {killed : P → Bool} (reachable : Attended data killed s) : Awake s := by
  refine Steps.Reachable.invariant (I := Awake) reachable ⟨nofun,nofun,nofun⟩ ?_
  intro s a s' before awake meets taken
  have locked := Reachable.locked (Steps.Reachable.weaken before fun _ _ _ => trivial)
  exact awake.step locked meets (moves_of_step taken)

/-- While `p->lock` is free, nobody sleeps on a pipe that has what it waits for. -/
theorem pipe_wakeups {data : Nat → UInt8} {killed : P → Bool} (reachable : Attended data killed s) (free : s.lock = none) :
    (∀ q n, s.pc q = .readAsleep n → s.pipe.content = [] ∧ s.pipe.writeopen = true) ∧
      ∀ q addr n i, s.pc q = .writeAsleep addr n i → s.pipe.count = PIPESIZE ∧ s.pipe.readopen = true := by
  have awake := reachable.awake
  have nobody {Q : Pc → Prop} : ¬ ∃ h, s.lock = some h ∧ Q (s.pc h) := by
    rintro ⟨h,holder,_⟩
    rw [free] at holder
    cases holder
  constructor
  · intro q n here
    obtain ⟨empty,isOpen⟩ := (awake.readers q (by rw [here]; trivial)).resolve_right nobody
    exact ⟨Pipe.empty_iff.mp empty,isOpen⟩
  · intro q addr n i here
    obtain ⟨full,isOpen⟩ := (awake.writers q (by rw [here]; trivial)).resolve_right nobody
    exact ⟨Pipe.full_iff.mp full,isOpen⟩

instance (pc : Pc) : Decidable pc.WaitsRead := by
  cases pc <;> first | exact isTrue trivial | exact isFalse id

instance (s : State P) (q : P) : Decidable (GivesUp s q) := by
  cases here : s.pc q with
  | write addr n i =>
    refine decidable_of_iff ((i : Int) < n ∧ s.pipe.full = true ∧ (s.pipe.readopen = false ∨ s.killed q = true))
      ⟨fun gives => ⟨addr,n,i,here,gives⟩,?_⟩
    rintro ⟨_,_,_,there,gives⟩
    rw [here] at there
    cases there
    exact gives
  | _ =>
    refine isFalse ?_
    rintro ⟨_,_,_,there,_⟩
    rw [here] at there
    cases there

instance [Fintype P] (s : State P) : (a : Action P) → Decidable (Attentive s a)
  | .turn q => decidable_of_iff (GivesUp s q → ∀ r, ¬ (s.pc r).WaitsRead)
    ⟨fun meets _ same => by cases same; exact meets,fun meets => meets q rfl⟩
  | .pipewrite .. | .piperead .. | .pipeclose .. | .kill _ => isTrue nofun

/-- A writer fills the pipe and goes to sleep; another one, which has been killed, leaves `pipewrite` with -1. -/
def givesUp : List (Action Bool) :=
  .pipewrite true (fun _ => 7) 513 :: List.replicate 516 (.turn true) ++ .pipewrite false (fun _ => 8) 1 :: List.replicate 3 (.turn false)

def sleepsFull (s : State Bool) : Bool :=
  match s.pc true, s.pc false with
  | .writeAsleep _ _ _, .outside => s.lock = none
  | _, _ => false

theorem pipe_wakeups_full : ∃ s, Steps.run step Attentive (init Bool (fun _ => 0) fun q => !q) givesUp = some s ∧
    (∃ addr n i, s.pc true = .writeAsleep addr n i) ∧ s.pipe.count = PIPESIZE ∧ s.pipe.readopen = true := by
  have runs : (Steps.run step Attentive (init Bool (fun _ => 0) fun q => !q) givesUp).any sleepsFull = true := by decide +kernel
  obtain ⟨s,run,asleep⟩ := (Option.any_eq_true _ _).mp runs
  rw [sleepsFull] at asleep
  split at asleep
  · rename_i addr n i here _
    exact ⟨s,run,⟨addr,n,i,here⟩,(pipe_wakeups (Steps.reachable_run .start run) (of_decide_eq_true asleep)).2 true addr n i here⟩
  · cases asleep

/-- The reader falls asleep; the writer is killed, fills the pipe and leaves `pipewrite`. -/
def strands : List (Action Bool) :=
  .piperead true 1 :: List.replicate 3 (.turn true) ++ .pipewrite false (fun _ => 7) 513 :: .kill false :: List.replicate 515 (.turn false)

def isStranded (s : State Bool) : Bool :=
  match s.pc true with
  | .readAsleep n => s.lock = none ∧ n = 1 ∧ s.pipe.count = PIPESIZE
  | _ => false

/-- A killed process fills the pipe and leaves `pipewrite` without a `wakeup`: the reader
    sleeps on while 512 bytes wait for it and `p->lock` is free. -/
theorem pipe_wakeup_lost : ∃ s : State Bool, Reachable (fun _ => 0) (fun _ => false) s ∧ s.lock = none ∧
    s.pc true = .readAsleep 1 ∧ s.pipe.count = PIPESIZE := by
  have runs : (Steps.run step (fun _ _ => True) (init Bool (fun _ => 0) fun _ => false) strands).any isStranded = true := by decide +kernel
  obtain ⟨s,run,stranded⟩ := (Option.any_eq_true _ _).mp runs
  rw [isStranded] at stranded
  split at stranded
  · rename_i n here
    obtain ⟨free,rfl,full⟩ := of_decide_eq_true stranded
    exact ⟨s,Steps.reachable_run .start run,free,here,full⟩
  · cases stranded

end

end Osce.Pipes
