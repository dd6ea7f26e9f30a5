import Osce.Lib.Mutex
import Osce.Proc.Moves

/-!
Which process runs where. `ptable.lock` is passed on across `swtch`, so whether a CPU has it
follows from where its scheduler or its process stands, and the state of a process
agrees with the CPU it is on, or with the place where it waits for one.
-/
namespace Osce.Procs
open Osce.Lib
open Function (update update_eq_self update_of_ne update_self)
set_option linter.unusedSectionVars false

variable {C K A : Type} [DecidableEq C] [DecidableEq K] [DecidableEq A]

def Pos.Locked : Pos K A → Prop
  | .unlocked _ => False
  | _ => True

/-- The process goes on here when a CPU switches to it. -/
def Pos.Resumes : Pos K A → Prop
  | .forkret | .back (.yield _) | .back (.sleep _) | .back (.wait _) => True
  | _ => False

def After.state : After K → ProcState
  | .yield _ => .RUNNABLE
  | .sleep _ | .wait _ => .SLEEPING
  | .exit => .ZOMBIE

def Pos.state : Pos K A → ProcState
  | .sched after => after.state
  | _ => .RUNNING

/-- `sleep` gives up another lock for other channels than entries of the table only, and
    `exit`, where it is not called, never comes back from `sched`. -/
def Pos.Fits : Pos K A → Prop
  | .sleepLocked (.proc _) _ => False
  | .sleep _ after => after.state = .SLEEPING
  | .back .exit => False
  | _ => True

/-- The place without a lock where the process is, or where it goes on after `yield`. -/
def Pos.place : Pos K A → Option (Place K)
  | .unlocked place | .yield place | .sched (.yield place) | .back (.yield place) => some place
  | _ => none

def Place.child : Place K → Option Slot
  | .forkEntry np | .forkStack np | .forkCopy np => some np
  | _ => none

def Pos.child (pos : Pos K A) : Option Slot := pos.place.bind Place.child

def Place.Stacked : Place K → Prop
  | .forkStack _ | .forkCopy _ => True
  | _ => False

def Pos.Stacked (pos : Pos K A) : Prop := ∃ place, pos.place = some place ∧ place.Stacked

def Scheduler.current : Scheduler → Option Slot
  | .chosen p | .marked p | .back p => some p
  | _ => none

def Cpu.Inside (cpu : Cpu) (pos : Slot → Pos K A) : Prop :=
  match cpu.stack with
  | some p => (pos p).Locked
  | none => cpu.sched ≠ .idle

structure Cpu.Ok (cpu : Cpu) : Prop where
  proc : cpu.proc = cpu.sched.current
  cr3 : cpu.cr3 = cpu.sched.current
  stack : ∀ p, cpu.stack = some p → cpu.sched = .back p

def Cpu.Suits (cpu : Cpu) (pos : Pos K A) (st : ProcState) : Prop :=
  match cpu.stack, cpu.sched with
  | some _, _ => st = pos.state ∧ pos.Fits
  | none, .chosen _ => st = .RUNNABLE ∧ pos.Resumes
  | none, .marked _ => st = .RUNNING ∧ pos.Resumes
  | none, .back _ => ∃ after, pos = .back after ∧ st = after.state
  | none, _ => False

def Pos.Rests (pos : Pos K A) : ProcState → Prop
  | .UNUSED | .EMBRYO => pos = .forkret ∨ pos = .back .exit
  | .SLEEPING => (∃ lk, pos = .back (.sleep lk)) ∨ ∃ status, pos = .back (.wait status)
  | .RUNNABLE => pos.Resumes
  | .RUNNING => False
  | .ZOMBIE => pos = .back .exit

structure Exclusive (state : Slot → ProcState) (table : Option C) (cpus : C → Cpu) (pos : Slot → Pos K A) : Prop where
  guards : Guards table fun c => (cpus c).Inside pos
  cpu : ∀ c, (cpus c).Ok
  unique : ∀ c d p, (cpus c).proc = some p → (cpus d).proc = some p → c = d
  on : ∀ c p, (cpus c).proc = some p → (cpus c).Suits (pos p) (state p)
  off : ∀ p, (∀ c, (cpus c).proc ≠ some p) → (pos p).Rests (state p)
  embryo : ∀ p np, (pos p).child = some np → state np = .EMBRYO ∧ ((pos p).Stacked → pos np = .forkret)
  single : ∀ p q np, (pos p).child = some np → (pos q).child = some np → p = q

def State.state (s : State C K A) : Slot → ProcState := fun p => (s.procs p).state

section
variable {cpu : Cpu} {pos pos' : Pos K A} {st : ProcState}

theorem Pos.Resumes.state (resumes : pos.Resumes) : pos.state = .RUNNING := by
  cases pos <;> first | rfl | cases resumes

theorem Pos.Resumes.locked (resumes : pos.Resumes) : pos.Locked := by
  cases pos <;> first | trivial | exact resumes.elim

theorem Pos.Resumes.fits (resumes : pos.Resumes) : pos.Fits := by
  cases pos with
  | back after => cases after <;> trivial
  | _ => first | trivial | exact resumes.elim

theorem Cpu.Suits.not_embryo (suits : cpu.Suits pos st) : st ≠ .UNUSED ∧ st ≠ .EMBRYO := by
  unfold Cpu.Suits at suits
  split at suits
  · rw [suits.1]
    cases pos with
    | sched after => cases after <;> exact ⟨nofun,nofun⟩
    | _ => exact ⟨nofun,nofun⟩
  · rw [suits.1]
    exact ⟨nofun,nofun⟩
  · rw [suits.1]
    exact ⟨nofun,nofun⟩
  · obtain ⟨after,-,rfl⟩ := suits
    cases after <;> exact ⟨nofun,nofun⟩
  · cases suits

theorem Pos.Rests.child (rests : pos.Rests st) (waits : st ≠ .RUNNABLE) : pos.child = none := by
  cases st with
  | UNUSED => rcases rests with rfl | rfl <;> rfl
  | EMBRYO => rcases rests with rfl | rfl <;> rfl
  | SLEEPING => rcases rests with ⟨lk,rfl⟩ | ⟨status,rfl⟩ <;> rfl
  | RUNNABLE => exact absurd rfl waits
  | RUNNING => cases rests
  | ZOMBIE =>
    cases rests
    rfl

theorem Pos.state_of_unlocked (unlocked : ¬ pos.Locked) : pos.state = .RUNNING := by
  cases pos <;> first | rfl | exact absurd trivial unlocked

theorem Cpu.Suits.running {places : Slot → Pos K A} {p : Slot} (ok : cpu.Ok) (here : cpu.proc = some p)
    (suits : cpu.Suits (places p) st) (outside : ¬ cpu.Inside places) : st = .RUNNING := by
  cases on : cpu.stack with
  | some q =>
    have same := ok.proc
    rw [ok.stack q on,here] at same
    cases same
    simp only [Cpu.Inside,on] at outside
    simp only [Cpu.Suits,on] at suits
    rw [suits.1]
    exact Pos.state_of_unlocked outside
  | none =>
    simp only [Cpu.Inside,on,ne_eq,not_not] at outside
    simp only [Cpu.Suits,on,outside] at suits

end

namespace Exclusive

variable {state state' : Slot → ProcState} {table table' : Option C} {cpus : C → Cpu} {pos : Slot → Pos K A}
  {c d : C} {cpu' : Cpu} {p q np : Slot} {pos' : Pos K A} {st : ProcState}

theorem proc_of_stack (e : Exclusive state table cpus pos) (on : (cpus c).stack = some p) : (cpus c).proc = some p := by
  rw [(e.cpu c).proc,(e.cpu c).stack p on]
  rfl

theorem of_stack (e : Exclusive state table cpus pos) (on : (cpus c).stack = some p) :
    state p = (pos p).state ∧ (pos p).Fits := by
  have suits := e.on c p (e.proc_of_stack on)
  simpa only [Cpu.Suits,on] using suits

theorem other_cpu (e : Exclusive state table cpus pos) (on : (cpus c).proc = some p) (other : d ≠ c) :
    (cpus d).proc ≠ some p := fun there => other (e.unique d c p there on)

/-- Only the CPU of a process depends on where the process stands. -/
theorem inside_other (e : Exclusive state table cpus pos) (on : (cpus c).proc = some p) (other : d ≠ c) :
    (cpus d).Inside (update pos p pos') ↔ (cpus d).Inside pos := by
  unfold Cpu.Inside
  split
  · rename_i q there
    have different : q ≠ p := by
      rintro rfl
      exact e.other_cpu on other (e.proc_of_stack there)
    rw [update_of_ne different]
  · exact Iff.rfl

theorem inside_of_stack (on : (cpus c).stack = some p) : (cpus c).Inside pos ↔ (pos p).Locked := by
  simp only [Cpu.Inside,on]

theorem embryo_off (e : Exclusive state table cpus pos) (child : (pos p).child = some np) (c : C) :
    (cpus c).proc ≠ some np := by
  intro here
  exact (e.on c np here).not_embryo.2 (e.embryo p np child).1

theorem unused_off (e : Exclusive state table cpus pos) (unused : state np = .UNUSED) (c : C) : (cpus c).proc ≠ some np := by
  intro here
  exact (e.on c np here).not_embryo.1 unused

theorem child_kept (e : Exclusive state table cpus pos) (same : pos'.place = (pos p).place) (child : pos'.child = some np) :
    state np = .EMBRYO ∧ (pos'.Stacked → pos np = .forkret) ∧ ∀ q, (pos q).child = some np → q = p := by
  rw [Pos.child,same] at child
  rw [Pos.Stacked,same]
  exact ⟨(e.embryo p np child).1,(e.embryo p np child).2,fun q also => e.single q p np also child⟩

/-- A CPU moves, with the process that it works on before or after the step. -/
theorem turn (e : Exclusive state table cpus pos) (p : Slot) (st : ProcState) (pos' : Pos K A)
    (guards : Guards table' fun d => (update cpus c cpu' d).Inside (update pos p pos'))
    (ok : cpu'.Ok) (mine : ∀ q, (cpus c).proc = some q → q = p) (away : ∀ d, d ≠ c → (cpus d).proc ≠ some p)
    (suits : ∀ q, cpu'.proc = some q → q = p ∧ cpu'.Suits pos' st) (rests : cpu'.proc = none → pos'.Rests st)
    (grown : state p ≠ .EMBRYO)
    (child : ∀ np, pos'.child = some np → state np = .EMBRYO ∧ (pos'.Stacked → pos np = .forkret) ∧
      ∀ q, (pos q).child = some np → q = p) :
    Exclusive (update state p st) table' (update cpus c cpu') (update pos p pos') := by
  have apart (np : Slot) (isEmbryo : state np = .EMBRYO) : np ≠ p := by
    rintro rfl
    exact grown isEmbryo
  have other (d : C) (different : d ≠ c) (q : Slot) (there : (cpus d).proc = some q) : q ≠ p := by
    rintro rfl
    exact away d different there
  refine ⟨guards,?_,?_,?_,?_,?_,?_⟩
  · intro d
    by_cases same : d = c
    · subst same
      rwa [update_self]
    · rw [update_of_ne same]
      exact e.cpu d
  · intro d d' q first second
    by_cases same : d = c
    · by_cases same' : d' = c
      · rw [same,same']
      · subst same
        rw [update_self] at first
        rw [update_of_ne same'] at second
        exact absurd (suits q first).1 (other d' same' q second)
    · rw [update_of_ne same] at first
      by_cases same' : d' = c
      · subst same'
        rw [update_self] at second
        exact absurd (suits q second).1 (other d same q first)
      · rw [update_of_ne same'] at second
        exact e.unique d d' q first second
  · intro d q there
    by_cases same : d = c
    · subst same
      rw [update_self] at there ⊢
      obtain ⟨rfl,fits⟩ := suits q there
      rwa [update_self,update_self]
    · rw [update_of_ne same] at there ⊢
      have different := other d same q there
      rw [update_of_ne different,update_of_ne different]
      exact e.on d q there
  · intro q off
    by_cases same : q = p
    · subst same
      rw [update_self,update_self]
      apply rests
      rw [Option.eq_none_iff_forall_ne_some]
      intro r here
      have gone := off c
      rw [update_self] at gone
      rw [(suits r here).1] at here
      exact gone here
    · rw [update_of_ne same,update_of_ne same]
      refine e.off q fun d there => ?_
      by_cases isC : d = c
      · subst isC
        exact same (mine q there)
      · have gone := off d
        rw [update_of_ne isC] at gone
        exact gone there
  · intro q np isChild
    by_cases same : q = p
    · subst same
      rw [update_self] at isChild ⊢
      obtain ⟨isEmbryo,stacked,-⟩ := child np isChild
      rw [update_of_ne (apart np isEmbryo),update_of_ne (apart np isEmbryo)]
      exact ⟨isEmbryo,stacked⟩
    · rw [update_of_ne same] at isChild ⊢
      have isEmbryo := (e.embryo q np isChild).1
      rw [update_of_ne (apart np isEmbryo),update_of_ne (apart np isEmbryo)]
      exact e.embryo q np isChild
  · intro q r np first second
    by_cases same : q = p
    · subst same
      rw [update_self] at first
      by_cases also : r = q
      · exact also.symm
      · rw [update_of_ne also] at second
        exact ((child np first).2.2 r second).symm
    · rw [update_of_ne same] at first
      by_cases also : r = p
      · subst also
        rw [update_self] at second
        exact (child np second).2.2 q first
      · rw [update_of_ne also] at second
        exact e.single q r np first second

theorem own (e : Exclusive state table cpus pos) (st : ProcState) (on : (cpus c).stack = some p)
    (guards : Guards table' fun d => (cpus d).Inside (update pos p pos'))
    (suits : st = pos'.state ∧ pos'.Fits)
    (child : ∀ np, pos'.child = some np → state np = .EMBRYO ∧ (pos'.Stacked → pos np = .forkret) ∧
      ∀ q, (pos q).child = some np → q = p) :
    Exclusive (update state p st) table' cpus (update pos p pos') := by
  have here := e.proc_of_stack on
  have moved := e.turn (c := c) p st pos' (by rwa [update_eq_self]) (e.cpu c)
    (fun q there => Option.some.inj (there.symm.trans here)) (fun d other => e.other_cpu here other)
    (fun q there => ⟨Option.some.inj (there.symm.trans here),by simpa only [Cpu.Suits,on] using suits⟩)
    (fun none => by rw [here] at none; cases none) (e.on c p here).not_embryo.2 child
  rwa [update_eq_self] at moved

section
variable (e : Exclusive state table cpus pos) (on : (cpus c).stack = some p)
include e on

theorem inside_stack_other (d : C) (other : d ≠ c) : (cpus d).Inside (update pos p pos') ↔ (cpus d).Inside pos :=
  e.inside_other (e.proc_of_stack on) other

theorem guards_stays (pos' : Pos K A) (same : pos'.Locked ↔ (pos p).Locked) :
    Guards table fun d => (cpus d).Inside (update pos p pos') := by
  refine e.guards.stays (q := c) ?_ (e.inside_stack_other on)
  rw [inside_of_stack on,inside_of_stack on,update_self]
  exact same

theorem guards_enters (pos' : Pos K A) (free : table = none) (locked : pos'.Locked) :
    Guards (some c) fun d => (cpus d).Inside (update pos p pos') := by
  refine e.guards.enters free ?_ (e.inside_stack_other on)
  rw [inside_of_stack on,update_self]
  exact locked

theorem guards_leaves (pos' : Pos K A) (was : (pos p).Locked) (gone : ¬ pos'.Locked) :
    Guards none fun d => (cpus d).Inside (update pos p pos') := by
  refine e.guards.leaves (q := c) ((inside_of_stack on).mpr was) ?_ (e.inside_stack_other on)
  rw [inside_of_stack on,update_self]
  exact gone

theorem walks (guards : Guards table' fun d => (cpus d).Inside (update pos p pos'))
    (was : (pos p).state = .RUNNING) (runs : pos'.state = .RUNNING ∧ pos'.Fits)
    (kept : pos'.child = none ∨ pos'.place = (pos p).place) : Exclusive state table' cpus (update pos p pos') := by
  have still : state p = pos'.state := by rw [(e.of_stack on).1,was,runs.1]
  have moved := e.own _ on guards ⟨still,runs.2⟩ fun np isChild => by
    rcases kept with childless | same
    · rw [childless] at isChild
      cases isChild
    · exact e.child_kept same isChild
  rwa [update_eq_self] at moved

end

theorem rest (e : Exclusive state table cpus pos) (st : ProcState) (pos' : Pos K A) (away : ∀ c, (cpus c).proc ≠ some np) (rests : pos'.Rests st)
    (childless : pos'.child = none) (embryo : ∀ q, (pos q).child = some np → st = .EMBRYO ∧ ((pos q).Stacked → pos' = .forkret)) :
    Exclusive (update state np st) table cpus (update pos np pos') := by
  refine ⟨?_,e.cpu,e.unique,?_,?_,?_,?_⟩
  · have same (c : C) : (cpus c).Inside (update pos np pos') ↔ (cpus c).Inside pos := by
      unfold Cpu.Inside
      split
      · rename_i q there
        have different : q ≠ np := by
          rintro rfl
          exact away c (e.proc_of_stack there)
        rw [update_of_ne different]
      · exact Iff.rfl
    exact fun c => (same c).trans (e.guards c)
  · intro c q here
    have different : q ≠ np := by
      rintro rfl
      exact away c here
    rw [update_of_ne different,update_of_ne different]
    exact e.on c q here
  · intro q off
    by_cases same : q = np
    · subst same
      rwa [update_self,update_self]
    · rw [update_of_ne same,update_of_ne same]
      exact e.off q off
  · intro q r child
    by_cases same : q = np
    · subst same
      rw [update_self,childless] at child
      cases child
    · rw [update_of_ne same] at child ⊢
      by_cases also : r = np
      · subst also
        rw [update_self,update_self]
        exact embryo q child
      · rw [update_of_ne also,update_of_ne also]
        exact e.embryo q r child
  · intro q r x first second
    have other (z : Slot) (child : (update pos np pos' z).child = some x) : (pos z).child = some x := by
      by_cases same : z = np
      · subst same
        rw [update_self,childless] at child
        cases child
      · rwa [update_of_ne same] at child
    exact e.single q r x (other q first) (other r second)

theorem wake (e : Exclusive state table cpus pos)
    (woken : ∀ q, state' q = state q ∨ state' q = .RUNNABLE ∧ state q = .SLEEPING ∧ ∀ c, (cpus c).proc ≠ some q) :
    Exclusive state' table cpus pos := by
  refine ⟨e.guards,e.cpu,e.unique,?_,?_,?_,e.single⟩
  · intro c q here
    rcases woken q with same | ⟨-,-,away⟩
    · rw [same]
      exact e.on c q here
    · exact absurd here (away c)
  · intro q away
    have rests := e.off q away
    rcases woken q with same | ⟨ready,asleep,-⟩
    · rwa [same]
    · rw [ready]
      rw [asleep] at rests
      rcases rests with ⟨lk,back⟩ | ⟨status,back⟩ <;> rw [back] <;> exact trivial
  · intro q np child
    obtain ⟨isEmbryo,stacked⟩ := e.embryo q np child
    rcases woken np with same | ⟨-,asleep,-⟩
    · rw [same]
      exact ⟨isEmbryo,stacked⟩
    · rw [isEmbryo] at asleep
      cases asleep

theorem running (e : Exclusive state table cpus pos) (here : (cpus c).proc = some p) (other : table ≠ some c) :
    state p = .RUNNING :=
  (e.on c p here).running (e.cpu c) here fun inside => other ((e.guards c).mp inside)

theorem asleep_free (e : Exclusive state table cpus pos) (free : table = none) (asleep : state q = .SLEEPING) (c : C) :
    (cpus c).proc ≠ some q := by
  intro here
  rw [e.running here (by rw [free]; exact nofun)] at asleep
  cases asleep

/-- While one process has `ptable.lock`, all that are on CPUs, but those in `sched`, are `RUNNING`. -/
theorem running_inside (e : Exclusive state table cpus pos) (on : (cpus c).stack = some p) (locked : (pos p).Locked)
    (was : (pos p).state = .RUNNING) (there : (cpus d).proc = some q) : state q = .RUNNING := by
  have held : table = some c := (e.guards c).mp ((inside_of_stack on).mpr locked)
  by_cases same : d = c
  · subst same
    cases (e.proc_of_stack on).symm.trans there
    rw [(e.of_stack on).1,was]
  · exact e.running there fun also => same (Option.some.inj (also.symm.trans held))

section
variable (e : Exclusive state table cpus pos) (on : (cpus c).stack = none)
include e on

theorem scans (guards : Guards table' fun d => (update cpus c cpu' d).Inside pos)
    (was : (cpus c).sched.current = none) (still : cpu'.sched.current = none)
    (same : cpu'.proc = (cpus c).proc ∧ cpu'.cr3 = (cpus c).cr3 ∧ cpu'.stack = none) :
    Exclusive state table' (update cpus c cpu') pos := by
  have noProc : (cpus c).proc = none := by rw [(e.cpu c).proc,was]
  have noCr3 : (cpus c).cr3 = none := by rw [(e.cpu c).cr3,was]
  have proc (d : C) : (update cpus c cpu' d).proc = (cpus d).proc := by
    by_cases isC : d = c
    · rw [isC,update_self,same.1]
    · rw [update_of_ne isC]
  refine ⟨guards,?_,?_,?_,?_,e.embryo,e.single⟩
  · intro d
    by_cases isC : d = c
    · rw [isC,update_self]
      refine ⟨by rw [same.1,noProc,still],by rw [same.2.1,noCr3,still],?_⟩
      intro p there
      rw [same.2.2] at there
      cases there
    · rw [update_of_ne isC]
      exact e.cpu d
  · intro d d' p first second
    rw [proc] at first second
    exact e.unique d d' p first second
  · intro d p there
    rw [proc] at there
    by_cases isC : d = c
    · rw [isC,noProc] at there
      cases there
    · rw [update_of_ne isC]
      exact e.on d p there
  · intro p away
    refine e.off p fun d there => ?_
    rw [← proc d] at there
    exact away d there

theorem inside_scheduler : (cpus c).Inside pos ↔ (cpus c).sched ≠ .idle := by
  simp only [Cpu.Inside,on]

theorem schedules (here : (cpus c).sched.current = some p) (st : ProcState) (cpu' : Cpu) (inside : cpu'.Inside pos) (ok : cpu'.Ok)
    (suits : ∀ q, cpu'.proc = some q → q = p ∧ cpu'.Suits (pos p) st) (rests : cpu'.proc = none → (pos p).Rests st) :
    Exclusive (update state p st) table (update cpus c cpu') pos := by
  have there : (cpus c).proc = some p := by rw [(e.cpu c).proc,here]
  have fits := e.on c p there
  have guards : Guards table fun d => (update cpus c cpu' d).Inside (update pos p (pos p)) := by
    rw [update_eq_self]
    refine e.guards.stays (q := c) ?_ fun d other => by rw [update_of_ne other]
    rw [update_self,e.inside_scheduler on]
    refine ⟨fun _ idle => ?_,fun _ => inside⟩
    rw [idle] at here
    cases here
  have moved := e.turn p st (pos p) guards ok (fun q also => Option.some.inj (also.symm.trans there))
    (fun d other => e.other_cpu there other) suits rests fits.not_embryo.2 fun np => e.child_kept rfl
  rwa [update_eq_self] at moved

end

theorem chooses (e : Exclusive state table cpus pos) {i : Nat} (on : (cpus c).stack = none) (here : (cpus c).sched = .scan i)
    (ready : state p = .RUNNABLE) :
    Exclusive state table
      (update cpus c { cpus c with proc := some p, cr3 := some p, sched := .chosen p }) pos := by
  have held : table = some c := by
    refine (e.guards c).mp ((e.inside_scheduler on).mpr ?_)
    rw [here]
    exact nofun
  have none : (cpus c).proc = none := by rw [(e.cpu c).proc,here]; rfl
  -- on another CPU it would be `RUNNING`
  have away (d : C) : (cpus d).proc ≠ some p := by
    intro there
    by_cases same : d = c
    · rw [same,none] at there
      cases there
    · rw [e.running there fun also => same (Option.some.inj (also.symm.trans held))] at ready
      cases ready
  have resumes : (pos p).Resumes := by
    have rests := e.off p away
    rwa [ready] at rests
  have guards : Guards table fun d => (update cpus c { cpus c with proc := some p, cr3 := some p, sched := .chosen p } d).Inside
      (update pos p (pos p)) := by
    rw [update_eq_self]
    refine e.guards.stays (q := c) ?_ fun d other => by rw [update_of_ne other]
    rw [update_self,e.inside_scheduler on,here]
    simp only [Cpu.Inside,on]
    exact ⟨fun _ => nofun,fun _ => nofun⟩
  have moved := e.turn p (state p) (pos p) guards ⟨rfl,rfl,fun q there => by rw [on] at there; cases there⟩
    (fun q there => by rw [none] at there; cases there) (fun d _ => away d)
    (fun q there => ⟨(Option.some.inj there).symm,by simpa only [Cpu.Suits,on] using ⟨ready,resumes⟩⟩) nofun
    (by rw [ready]; exact nofun) fun np => e.child_kept rfl
  rwa [update_eq_self,update_eq_self] at moved

theorem swtch (e : Exclusive state table cpus pos) {after : After K} (on : (cpus c).stack = some p)
    (here : pos p = .sched after) :
    Exclusive state table (update cpus c { cpus c with stack := none }) (update pos p (.back after)) := by
  have there := e.proc_of_stack on
  have back := (e.cpu c).stack p on
  have st : state p = after.state := by rw [(e.of_stack on).1,here]; rfl
  have guards : Guards table fun d => (update cpus c { cpus c with stack := none } d).Inside
      (update pos p (.back after)) := by
    refine e.guards.stays (q := c) ?_ fun d other => by rw [update_of_ne other]; exact e.inside_stack_other on d other
    rw [update_self,inside_of_stack on,here]
    simp only [Cpu.Inside,back]
    exact ⟨fun _ => trivial,fun _ => nofun⟩
  have moved := e.turn p (state p) (.back after) guards ⟨(e.cpu c).proc,(e.cpu c).cr3,nofun⟩
    (fun q also => Option.some.inj (also.symm.trans there)) (fun d other => e.other_cpu there other)
    (fun q also => ⟨Option.some.inj (also.symm.trans there),by simpa only [Cpu.Suits,back] using ⟨after,rfl,st⟩⟩)
    (fun none => by rw [there] at none; cases none) (e.on c p there).not_embryo.2
    fun np => e.child_kept (by rw [here]; cases after <;> rfl)
  rwa [update_eq_self] at moved

section
variable {place place' : Place K} (e : Exclusive state table cpus pos) (on : (cpus c).stack = some p) (here : pos p = .unlocked place)
  (child : place.child = some np)
include e on here child

theorem forks (still : place'.child = some np) (stacked : place'.Stacked → pos np = .forkret) :
    Exclusive state table cpus (update pos p (.unlocked place')) := by
  have isChild : (pos p).child = some np := by rw [here]; exact child
  have moved := e.own (state p) on (e.guards_stays on (.unlocked place') (by rw [here]; exact Iff.rfl))
    ⟨by rw [(e.of_stack on).1,here]; rfl,trivial⟩ ?_
  · rwa [update_eq_self] at moved
  · intro x also
    cases still.symm.trans also
    refine ⟨(e.embryo p np isChild).1,?_,fun q same => e.single q p np same isChild⟩
    rintro ⟨_,same,isStacked⟩
    cases same
    exact stacked isStacked

theorem parts (st : ProcState) (rests : (pos np).Rests st) : Exclusive (update state np st) table cpus (update pos p .outside) := by
  have child : (pos p).child = some np := by rw [here]; exact child
  have left := e.walks on (e.guards_stays on .outside (by rw [here]; exact Iff.rfl)) (by rw [here]; rfl) ⟨rfl,trivial⟩ (.inl rfl)
  have away := e.embryo_off child
  have apart : np ≠ p := by
    rintro rfl
    exact away c (e.proc_of_stack on)
  have childless : (pos np).child = none := by
    have waits := e.off np away
    rw [(e.embryo p np child).1] at waits
    exact waits.child nofun
  have changed := left.rest st (pos np) away rests childless ?_
  · have same : pos np = update pos p .outside np := (update_of_ne apart _ _).symm
    rwa [same,update_eq_self] at changed
  · intro q also
    by_cases same : q = p
    · rw [same,update_self] at also
      cases also
    · rw [update_of_ne same] at also
      exact absurd (e.single q p np also child) same

end

theorem zombie_off (e : Exclusive state table cpus pos) (on : (cpus c).stack = some p) (locked : (pos p).Locked)
    (was : (pos p).state = .RUNNING) (dead : state q = .ZOMBIE) (d : C) : (cpus d).proc ≠ some q := by
  intro there
  rw [e.running_inside on locked was there] at dead
  cases dead

theorem of_eq (e : Exclusive state table cpus pos) (same : ∀ q, state' q = state q) : Exclusive state' table cpus pos := by
  rwa [funext same]

end Exclusive

section
variable {s s' : State C K A} {a : Action C K A} {p q : Slot} {pr : Proc A}

theorem state_update (q : Slot) : (update s.procs p pr q).state = update s.state p pr.state q := by
  by_cases same : q = p
  · rw [same,update_self,update_self]
  · rw [update_of_ne same,update_of_ne same]
    rfl

theorem state_kept (same : pr.state = s.state p) (q : Slot) : (update s.procs p pr q).state = s.state q := by
  rw [state_update,same,update_eq_self]

theorem Exclusive.wakeup1 {chan : Option (Chan A)} (e : Exclusive s.state s.table s.cpus s.pos) (free : s.table = none) :
    Exclusive (fun q => (Procs.wakeup1 s.procs chan q).state) s.table s.cpus s.pos := by
  refine e.wake fun q => ?_
  rw [wakeup1_eq]
  by_cases asleep : (s.procs q).state = .SLEEPING ∧ (s.procs q).chan = chan
  · exact .inr ⟨if_pos asleep,asleep.1,e.asleep_free free asleep.1⟩
  · exact .inl (if_neg asleep)

theorem Exclusive.kill {pid : Int} (e : Exclusive s.state s.table s.cpus s.pos) (free : s.table = none) :
    Exclusive (fun q => ((Procs.kill s.procs pid).2 q).state) s.table s.cpus s.pos := by
  refine e.wake fun q => ?_
  rw [kill_eq]
  by_cases asleep : find s.procs pid = some q ∧ (s.procs q).state = .SLEEPING
  · exact .inr ⟨if_pos asleep,asleep.2,e.asleep_free free asleep.2⟩
  · exact .inl (if_neg asleep)

/-- The section of `exit` wakes up sleeping processes, and its process becomes a zombie. -/
theorem Exclusive.exit {c : C} (e : Exclusive s.state s.table s.cpus s.pos) (on : (s.cpus c).stack = some p)
    (here : s.pos p = .exiting) :
    Exclusive (fun q => (Procs.exit s.procs p q).state) s.table s.cpus (update s.pos p (.sched .exit)) := by
  have locked : (s.pos p).Locked := by rw [here]; exact trivial
  have runs : (s.pos p).state = .RUNNING := by rw [here]; rfl
  have woken : Exclusive (fun q => if q = p then s.state p else (Procs.exit s.procs p q).state) s.table s.cpus s.pos := by
    refine e.wake fun q => ?_
    by_cases same : q = p
    · rw [if_pos same,same]
      exact .inl rfl
    · rw [if_neg same,exit_other _ same]
      simp only
      split
      · rename_i asleep
        refine .inr ⟨rfl,asleep.1,fun d there => ?_⟩
        have wakes : s.state q = .RUNNING := e.running_inside on locked runs there
        rw [State.state,asleep.1] at wakes
        cases wakes
      · exact .inl rfl
  have guards := woken.guards_stays on (.sched .exit) (by rw [here]; exact Iff.rfl)
  have dead := woken.own .ZOMBIE on guards ⟨rfl,trivial⟩ nofun
  refine dead.of_eq fun q => ?_
  by_cases same : q = p
  · rw [same,update_self,exit_self]
  · rw [update_of_ne same,if_neg same]

theorem Exclusive.inside {c : C} (e : Exclusive s.state s.table s.cpus s.pos) (pos : Pos K A) (on : (s.cpus c).stack = some p)
    (was : (s.pos p).Locked) (runs : (s.pos p).state = .RUNNING) (locked : pos.Locked)
    (next : pos.state = .RUNNING ∧ pos.Fits) (childless : pos.child = none) :
    Exclusive s.state s.table s.cpus (update s.pos p pos) :=
  e.walks on (e.guards_stays on pos ⟨fun _ => was,fun _ => locked⟩) runs next (.inl childless)

theorem Exclusive.step (e : Exclusive s.state s.table s.cpus s.pos) (m : Moves s a s') :
    Exclusive s'.state s'.table s'.cpus s'.pos := by
  cases m with
  | takes on here free =>
    refine e.scans on ?_ (by rw [here]; rfl) rfl ⟨rfl,rfl,on⟩
    refine e.guards.enters free ?_ fun d other => by rw [update_of_ne other]
    rw [update_self]
    simp only [Cpu.Inside,on]
    exact nofun
  | skips on here =>
    refine e.scans on ?_ (by rw [here]; rfl) rfl ⟨rfl,rfl,on⟩
    refine e.guards.stays ?_ fun d other => by rw [update_of_ne other]
    rw [update_self,e.inside_scheduler on,here]
    simp only [Cpu.Inside,on]
    exact ⟨fun _ => nofun,fun _ => nofun⟩
  | rests on here =>
    refine e.scans on ?_ (by rw [here]; rfl) rfl ⟨rfl,rfl,on⟩
    refine e.guards.leaves ((e.inside_scheduler on).mpr ?_) ?_ fun d other => by rw [update_of_ne other]
    · rw [here]
      exact nofun
    · rw [update_self]
      simp only [Cpu.Inside,on]
      exact fun h => h rfl
  | chooses on here ready => exact e.chooses on here ready
  | @marks c p on here =>
    have there : (s.cpus c).proc = some p := by rw [(e.cpu c).proc,here]; rfl
    have fits := e.on c p there
    simp only [Cpu.Suits,on,here] at fits
    refine (e.schedules (p := p) on (by rw [here]; rfl) .RUNNING _ ?_ ?_ ?_ ?_).of_eq state_update
    · simp only [Cpu.Inside,on]
      exact nofun
    · exact ⟨there,by rw [(e.cpu c).cr3,here]; rfl,fun q also => by rw [on] at also; cases also⟩
    · intro q also
      refine ⟨Option.some.inj (also.symm.trans there),?_⟩
      simp only [Cpu.Suits,on]
      exact ⟨trivial,fits.2⟩
    · intro none
      rw [there] at none
      cases none
  | @switches c p on here =>
    have there : (s.cpus c).proc = some p := by rw [(e.cpu c).proc,here]; rfl
    have fits := e.on c p there
    simp only [Cpu.Suits,on,here] at fits
    have moved := e.schedules (p := p) on (by rw [here]; rfl) (s.state p) { s.cpus c with stack := some p, sched := .back p }
      fits.2.locked ⟨there,by rw [(e.cpu c).cr3,here]; rfl,fun q also => by cases also; rfl⟩
      (fun q also => ⟨Option.some.inj (also.symm.trans there),by rw [fits.1]; exact ⟨fits.2.state.symm,fits.2.fits⟩⟩)
      (fun none => by rw [there] at none; cases none)
    rwa [update_eq_self] at moved
  | @resumes c p on here =>
    have there : (s.cpus c).proc = some p := by rw [(e.cpu c).proc,here]; rfl
    have fits := e.on c p there
    simp only [Cpu.Suits,on,here] at fits
    obtain ⟨after,back,st⟩ := fits
    have moved := e.schedules (p := p) on (by rw [here]; rfl) (s.state p)
      { s.cpus c with proc := none, cr3 := none, sched := .scan (p + 1) } (by simp only [Cpu.Inside,on]; exact nofun)
      ⟨rfl,rfl,fun q also => by rw [on] at also; cases also⟩ nofun ?_
    · rwa [update_eq_self] at moved
    · intro _
      rw [st,back]
      cases after with
      | yield place => exact trivial
      | sleep lk => exact .inl ⟨lk,rfl⟩
      | wait status => exact .inr ⟨status,rfl⟩
      | exit => exact rfl
  | wakes free calls => exact e.wakeup1 free
  | kills on here free => exact e.kill free
  | pstats on here free => exact e
  | full on here free => exact e
  | @forks c p np on here free found =>
    have away := e.unused_off found
    have rests := e.off np away
    rw [show s.state np = .UNUSED from found] at rests
    -- nobody else forks into an unused entry
    have fresh (q : Slot) : (s.pos q).child ≠ some np := by
      intro child
      have isEmbryo := (e.embryo q np child).1
      rw [State.state,found] at isEmbryo
      cases isEmbryo
    have taken : Exclusive (update s.state np .EMBRYO) s.table s.cpus s.pos := by
      have changed := e.rest .EMBRYO (s.pos np) away rests (rests.child nofun) fun q child => absurd child (fresh q)
      rwa [update_eq_self] at changed
    have still : update s.state np .EMBRYO p = .RUNNING := by rw [(taken.of_stack on).1,here]; rfl
    have moved := taken.own .RUNNING on (taken.guards_stays on (.forkEntry np) (by rw [here]; exact Iff.rfl)) ⟨rfl,trivial⟩
      (fun x child => by
        cases child
        exact ⟨update_self _ _ _,by rintro ⟨_,⟨⟩,⟨⟩⟩,fun q also => absurd also (fresh q)⟩)
    rw [← still,update_eq_self] at moved
    exact moved.of_eq state_update
  | @starts c p np ok on here free =>
    have stacked := (e.embryo p np (by rw [here]; rfl)).2 (by rw [here]; exact ⟨_,rfl,trivial⟩)
    exact (e.parts on here rfl .RUNNABLE (by rw [stacked]; exact trivial)).of_eq state_update
  | acquires on here free => exact e
  | releases on here held => exact e
  | relocks on here free =>
    exact e.walks on (e.guards_stays on .outside (by rw [here]; exact Iff.rfl)) (by rw [here]; rfl) ⟨rfl,trivial⟩ (.inl rfl)
  | @enters _ c p pos n on free how =>
    have facts : (s.pos p).state = .RUNNING ∧ pos.Locked ∧ pos.state = .RUNNING ∧ pos.Fits ∧
        (pos.child = none ∨ pos.place = (s.pos p).place) := by
      rcases how with ⟨here,⟨chan,lk,-,rfl⟩ | ⟨status,-,rfl⟩⟩ | ⟨here,rfl,-⟩ | ⟨place,here,rfl,-⟩ <;> rw [here]
      · exact ⟨rfl,trivial,rfl,trivial,.inl rfl⟩
      · exact ⟨rfl,trivial,rfl,trivial,.inl rfl⟩
      · exact ⟨rfl,trivial,rfl,trivial,.inl rfl⟩
      · exact ⟨rfl,trivial,rfl,trivial,.inr rfl⟩
    obtain ⟨was,locked,runs,fits,kept⟩ := facts
    exact e.walks on (e.guards_enters on pos free locked) was ⟨runs,fits⟩ kept
  | @leaves c p place ok n ret on here =>
    have facts : (s.pos p).state = .RUNNING ∧ (s.pos p).Locked ∧
        ((Pos.unlocked place : Pos K A).child = none ∨ (Pos.unlocked place : Pos K A).place = (s.pos p).place) := by
      rcases here with ⟨here | ⟨r,here⟩,rfl⟩ | here <;> rw [here]
      · exact ⟨rfl,trivial,.inl rfl⟩
      · exact ⟨rfl,trivial,.inl rfl⟩
      · exact ⟨rfl,trivial,.inr rfl⟩
    exact e.walks on (e.guards_leaves on (.unlocked place) facts.2.1 id) facts.1 ⟨rfl,trivial⟩ facts.2.2
  | @wakened c p lk ok n on here =>
    refine (e.walks on (e.guards_leaves on (.relock lk) (by rw [here]; exact trivial) id) (by rw [here]; rfl)
      ⟨rfl,trivial⟩ (.inl rfl)).of_eq (state_kept rfl)
  | @yields c p place ok on here =>
    exact (e.own .RUNNABLE on (e.guards_stays on (.sched (.yield place)) (by rw [here]; exact Iff.rfl)) ⟨rfl,trivial⟩
      fun np => e.child_kept (by rw [here]; rfl)).of_eq state_update
  | gives on here held => exact e.inside _ on (by rw [here]; exact trivial) (by rw [here]; rfl) trivial ⟨rfl,rfl⟩ rfl
  | @sleeps c p chan after ok on here =>
    have fits := (e.of_stack on).2
    rw [here] at fits
    have guards := e.guards_stays on (.sched after) (by rw [here]; exact Iff.rfl)
    refine (e.own .SLEEPING on guards ⟨fits.symm,trivial⟩ fun np child => ?_).of_eq state_update
    cases after with
    | yield place => cases fits
    | _ => cases child
  | swtch on here => exact e.swtch on here
  | @rewaits c p status ok on here =>
    exact (e.inside (.wait status) on (by rw [here]; exact trivial) (by rw [here]; rfl) trivial ⟨rfl,trivial⟩ rfl).of_eq (state_kept rfl)
  | dies on here => exact e.exit on here
  | @reaps c p q status ok on here child dead =>
    have away := e.zombie_off on (by rw [here]; exact trivial) (by rw [here]; rfl) dead
    have rests := e.off q away
    rw [show s.state q = .ZOMBIE from dead] at rests
    have freed := e.rest .UNUSED (s.pos q) away (.inr rests) (rests.child nofun) ?_
    · rw [update_eq_self] at freed
      have guards := freed.guards_stays on (.waited (s.procs q).pid) (by rw [here]; exact Iff.rfl)
      exact (freed.walks on guards (by rw [here]; rfl) ⟨rfl,trivial⟩ (.inl rfl)).of_eq state_update
    · intro r isChild
      have isEmbryo := (e.embryo r q isChild).1
      rw [State.state,dead] at isEmbryo
      cases isEmbryo
  | waits on here none childless =>
    exact e.inside _ on (by rw [here]; exact trivial) (by rw [here]; rfl) trivial ⟨rfl,trivial⟩ rfl
  | dozes on here none => exact e.inside _ on (by rw [here]; exact trivial) (by rw [here]; rfl) trivial ⟨rfl,rfl⟩ rfl
  | exits on here other =>
    exact (e.walks on (e.guards_stays on .exit (by rw [here]; exact Iff.rfl)) (by rw [here]; rfl) ⟨rfl,trivial⟩ (.inl rfl)).of_eq
      (state_kept rfl)
  | changes on here => exact e.of_eq (state_kept rfl)
  | @kstack c p np ok on here =>
    have child : (s.pos p).child = some np := by rw [here]; rfl
    have ready := e.rest (s.state np) .forkret (e.embryo_off child)
      (by rw [(e.embryo p np child).1]; exact .inl rfl) rfl fun q also => ⟨(e.embryo q np also).1,fun _ => rfl⟩
    rw [update_eq_self] at ready
    have apart : p ≠ np := by
      rintro rfl
      exact e.embryo_off child c (e.proc_of_stack on)
    exact ready.forks on (by rw [update_of_ne apart]; exact here) rfl rfl fun _ => update_self _ _ _
  | @copies c p np ok image on here =>
    have child : (s.pos p).child = some np := by rw [here]; rfl
    refine (e.forks on here rfl rfl fun _ => ?_).of_eq (state_kept rfl)
    exact (e.embryo p np child).2 (by rw [here]; exact ⟨_,rfl,trivial⟩)
  | @fails c p np ok on here =>
    obtain ⟨place,here,child⟩ : ∃ place, s.pos p = .unlocked place ∧ place.child = some np := by
      rcases here with here | here <;> exact ⟨_,here,rfl⟩
    have isChild : (s.pos p).child = some np := by rw [here]; exact child
    have rests := e.off np (e.embryo_off isChild)
    rw [(e.embryo p np isChild).1] at rests
    exact (e.parts on here child .UNUSED rests).of_eq state_update

def State.Turns (s : State C K A) (c : C) (cpu : Cpu) : Prop :=
  (cpu.stack = (s.cpus c).stack ∨ cpu.stack = none ∨
    ∃ p, cpu.stack = some p ∧ (s.cpus c).stack = none ∧ (s.cpus c).sched = .marked p) ∧
  (cpu.cr3 = (s.cpus c).cr3 ∨ cpu.cr3 = none ∨ ∃ p, cpu.cr3 = some p ∧ (s.procs p).state = .RUNNABLE)

theorem Moves.turns (m : Moves s a s') (d : C) : s.Turns d (s'.cpus d) := by
  have one (c : C) (cpu : Cpu) (turns : s.Turns c cpu) : s.Turns d (update s.cpus c cpu d) := by
    by_cases same : d = c
    · rwa [same,update_self]
    · rw [update_of_ne same]
      exact ⟨.inl rfl,.inl rfl⟩
  cases m
  case chooses c p on here ready => exact one _ _ ⟨.inl rfl,.inr (.inr ⟨p,rfl,ready⟩)⟩
  case switches c p on here => exact one _ _ ⟨.inr (.inr ⟨p,rfl,on,here⟩),.inl rfl⟩
  case resumes c p on here => exact one _ _ ⟨.inl rfl,.inr (.inl rfl)⟩
  case swtch c p after ok on here => exact one _ _ ⟨.inr (.inl rfl),.inl rfl⟩
  case takes => exact one _ _ ⟨.inl rfl,.inl rfl⟩
  case skips => exact one _ _ ⟨.inl rfl,.inl rfl⟩
  case rests => exact one _ _ ⟨.inl rfl,.inl rfl⟩
  case marks => exact one _ _ ⟨.inl rfl,.inl rfl⟩
  all_goals exact ⟨.inl rfl,.inl rfl⟩

theorem Exclusive.init (image : Slot → Image) :
    Exclusive (State.init C K A image).state none (State.init C K A image).cpus (State.init C K A image).pos := by
  refine ⟨?_,fun _ => ⟨rfl,rfl,nofun⟩,nofun,nofun,?_,nofun,nofun⟩
  · intro c
    exact ⟨fun inside => absurd rfl inside,nofun⟩
  · intro p _
    by_cases same : p = initproc
    · subst same
      exact trivial
    · have unused : (State.init C K A image).state p = .UNUSED := by simp [State.state,State.init,same]
      rw [unused]
      exact .inl rfl

theorem Reachable.exclusive {image : Slot → Image} (reachable : Reachable image s) :
    Exclusive s.state s.table s.cpus s.pos :=
  Steps.Reachable.invariant (I := fun s => Exclusive s.state s.table s.cpus s.pos) reachable (Exclusive.init image)
    fun _ _ _ _ e _ taken => e.step (moves_of_step taken)

end

/-- While nobody has `ptable.lock`, a process is the current one of at most one CPU, and is
    `RUNNING` exactly if it is; a CPU loads the page directory of a `RUNNABLE` process only,
    and switches to a stack whose process is marked `RUNNING` by then; and when `wait` frees
    the stack and the page directory of a child, no CPU is on them. -/
theorem scheduling_exclusive {image : Slot → Image} {s : State C K A} (reachable : Reachable image s) :
    (s.table = none →
      (∀ c d p, (s.cpus c).proc = some p → (s.cpus d).proc = some p → c = d) ∧
      ∀ p, (s.procs p).state = .RUNNING ↔ ∃ c, (s.cpus c).proc = some p) ∧
    (∀ a s' c p, step s a = some (.ok s') →
      ((s'.cpus c).cr3 = some p → (s.cpus c).cr3 ≠ some p → (s.procs p).state = .RUNNABLE) ∧
      ((s'.cpus c).stack = some p → (s.cpus c).stack ≠ some p → (s.procs p).state = .RUNNING)) ∧
    ∀ c p q status, (s.cpus c).stack = some p → s.pos p = .wait status → zombie s.procs p = some q →
      ∀ d, (s.cpus d).stack ≠ some q ∧ (s.cpus d).cr3 ≠ some q ∧ (s.cpus d).proc ≠ some q := by
  have e := reachable.exclusive
  refine ⟨fun free => ⟨e.unique,fun p => ⟨fun runs => ?_,?_⟩⟩,?_,?_⟩
  · by_contra away
    have rests := e.off p (not_exists.mp away)
    rw [State.state,runs] at rests
    exact rests
  · rintro ⟨c,here⟩
    exact e.running here (by rw [free]; exact nofun)
  · intro a s' c p taken
    obtain ⟨stack,cr3⟩ := (moves_of_step taken).turns c
    constructor
    · intro now before
      rcases cr3 with same | gone | ⟨q,new,ready⟩
      · exact absurd (same ▸ now) before
      · rw [gone] at now
        cases now
      · cases new.symm.trans now
        exact ready
    · intro now before
      rcases stack with same | gone | ⟨q,new,on,marked⟩
      · exact absurd (same ▸ now) before
      · rw [gone] at now
        cases now
      · cases new.symm.trans now
        have fits := e.on c p (by rw [(e.cpu c).proc,marked]; rfl)
        simp only [Cpu.Suits,on,marked] at fits
        exact fits.1
  · intro c p q status on here found d
    have away := e.zombie_off on (by rw [here]; exact trivial) (by rw [here]; rfl) (zombie_some found).2 d
    refine ⟨fun there => away (e.proc_of_stack there),fun there => away ?_,away⟩
    rw [(e.cpu d).proc,← (e.cpu d).cr3]
    exact there

section

def empty : Slot → Image := fun _ => ⟨0,[],fun _ => false⟩

def secondSlot : Slot := ⟨1,by decide⟩

def forked : List (Action Bool Unit Unit) :=
  List.replicate 4 (.scheduler false) ++ [.turn false true,.call false .fork] ++ List.replicate 3 (.turn false true)

/-- The timer takes the child away in `exit`, once. -/
def waiting : List (Action Bool Unit Unit) :=
  forked ++ List.replicate 5 (.scheduler true) ++ [.turn true true,.call true (.exit 7)] ++
    [.yield true,.turn true true,.turn true true] ++ List.replicate 69 (.scheduler true) ++ [.turn true true] ++
    List.replicate 3 (.turn true true) ++ List.replicate 64 (.scheduler true) ++ [.call false (.wait true)]

def after (actions : List (Action Bool Unit Unit)) : Option (State Bool Unit Unit) :=
  Steps.run step (fun _ _ => True) (State.init Bool Unit Unit empty) actions

theorem reachable_after {actions : List (Action Bool Unit Unit)} {s : State Bool Unit Unit} (run : after actions = some s) :
    Reachable empty s := Steps.reachable_run .start run

theorem scheduling_exclusive_waiting : ∃ s, after waiting = some s ∧ (s.procs secondSlot).state = .ZOMBIE ∧
    ∀ d, (s.cpus d).stack ≠ some secondSlot ∧ (s.cpus d).cr3 ≠ some secondSlot ∧ (s.cpus d).proc ≠ some secondSlot := by
  have facts : (after waiting).any (fun s => decide ((s.cpus false).stack = some initproc) &&
      decide (zombie s.procs initproc = some secondSlot) && s.pos initproc matches .wait _) = true := by decide +kernel
  obtain ⟨s,run,holds⟩ := (Option.any_eq_true _ _).mp facts
  simp only [Bool.and_eq_true,decide_eq_true_eq] at holds
  obtain ⟨⟨on,found⟩,here⟩ := holds
  obtain ⟨status,here⟩ : ∃ status, s.pos initproc = .wait status := by
    split at here
    · exact ⟨_,‹_›⟩
    · cases here
  exact ⟨s,run,(zombie_some found).2,(scheduling_exclusive (reachable_after run)).2.2 false _ _ status on here found⟩

end

end Osce.Procs
