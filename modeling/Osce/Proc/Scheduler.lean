import Osce.Proc.Exclusive

/-!
What the schedulers promise, whatever the processes do. A step panics only for a process that
misuses a lock other than `ptable.lock`, or that is not to exit. While a process is `RUNNABLE`, the
loops of a CPU come closer to its entry with every process that they choose.
-/
namespace Osce.Procs
set_option linter.unusedSectionVars false

variable {C K A : Type} [DecidableEq C] [DecidableEq K] [DecidableEq A]

/-- The entries that the loop has to look at before that of `p`, in this round or the next. -/
def before (p : Slot) (i : Nat) : Nat := if i ≤ p then p - i else NPROC - i + p

def Scheduler.ahead (p : Slot) : Scheduler → Nat
  | .idle => before p 0
  | .scan i => before p i
  | .chosen q => if q = p then 0 else before p (q + 1)
  | .marked q | .back q => before p (q + 1)

/-- 1 if the loop has just chosen a process other than `p`. -/
def overtakes (p : Slot) : Scheduler → Scheduler → Nat
  | .scan _,.chosen q => if q = p then 0 else 1
  | _,_ => 0

/-- A run in which `p` is ready all the time and the CPU chooses other processes `n` times. -/
inductive Waits (p : Slot) (c : C) (s : State C K A) : Nat → State C K A → Prop where
  | start (ready : (s.procs p).state = .RUNNABLE) : Waits p c s 0 s
  | step {n : Nat} {t t' : State C K A} {a : Action C K A} (run : Waits p c s n t) (taken : step t a = some (.ok t'))
      (ready : (t'.procs p).state = .RUNNABLE) : Waits p c s (n + overtakes p (t.cpus c).sched (t'.cpus c).sched) t'

section
variable {s s' : State C K A} {a : Action C K A} {c d : C} {p : Slot} {text : String}

section
variable (e : Exclusive s.state s.table s.cpus s.pos) (on : (s.cpus c).stack = some p)
include e on

end

attribute [local simp] State.setCpu overtakes Scheduler.ahead

theorem before_lt (p : Slot) (i : Nat) : before p i < NPROC := by
  have := p.isLt
  unfold before
  split <;> omega

theorem before_next {i : Nat} (inside : i < NPROC) (other : i ≠ p) : before p (i + 1) + 1 = before p i := by
  have := p.isLt
  unfold before
  split <;> split <;> omega

theorem before_end {i : Nat} (outside : ¬ i < NPROC) : before p i = before p 0 := by
  have := p.isLt
  rw [before,if_neg (by omega),before,if_pos (Nat.zero_le _)]
  omega

theorem scheduler_ahead (ready : (s.procs p).state = .RUNNABLE) (still : (s'.procs p).state = .RUNNABLE)
    (taken : s.scheduler c = some (.ok s')) :
    overtakes p (s.cpus c).sched (s'.cpus c).sched + (s'.cpus c).sched.ahead p ≤ (s.cpus c).sched.ahead p := by
  simp only [State.scheduler] at taken
  split at taken
  case h_1 here =>
    obtain ⟨_,locked,rfl⟩ := andThen_ok taken
    simp [here,Scheduler.ahead]
  case h_2 i here =>
    split at taken
    · split at taken
      · rename_i inside idle
        have other : i ≠ p := by
          rintro rfl
          exact idle ready
        cases taken
        simp [here,← before_next inside other]
      · rename_i inside _
        cases taken
        by_cases other : i = p
        · simp [here,other]
        · simp [here,Fin.ext_iff,other,← before_next inside other,Nat.add_comm]
    · rename_i outside
      obtain ⟨_,unlocked,rfl⟩ := andThen_ok taken
      simp [here,before_end outside]
  case h_3 q here =>
    cases taken
    have other : q ≠ p := by
      rintro rfl
      simp [State.setProc,State.setCpu] at still
    simp [here,other]
  case h_4 q here =>
    cases taken
    simp [here,Scheduler.ahead]
  case h_5 q here =>
    cases taken
    simp [here,Scheduler.ahead]

/-- Only the scheduler of a CPU moves on in its loop. -/
theorem Moves.sched_eq (m : Moves s a s') (other : a ≠ .scheduler d) : (s'.cpus d).sched = (s.cpus d).sched := by
  have one (c : C) (cpu : Cpu) (same : c = d → cpu.sched = (s.cpus d).sched) :
      (Function.update s.cpus c cpu d).sched = (s.cpus d).sched := by
    by_cases isD : d = c
    · rw [isD,Function.update_self,same isD.symm,isD]
    · rw [Function.update_of_ne isD]
  cases m
  case swtch => exact one _ _ fun same => by rw [same]
  all_goals first | rfl | exact one _ _ fun same => absurd (congrArg _ same) other

theorem step_ahead (ready : (s.procs p).state = .RUNNABLE) (still : (s'.procs p).state = .RUNNABLE)
    (taken : step s a = some (.ok s')) (c : C) :
    overtakes p (s.cpus c).sched (s'.cpus c).sched + (s'.cpus c).sched.ahead p ≤ (s.cpus c).sched.ahead p := by
  by_cases own : a = .scheduler c
  · subst own
    simp only [step] at taken
    split at taken
    · exact scheduler_ahead ready still taken
    · cases taken
  · have nothing (x : Scheduler) : overtakes p x x = 0 := by cases x <;> rfl
    rw [(moves_of_step taken).sched_eq own,nothing,Nat.zero_add]

theorem Waits.ready {n : Nat} (waits : Waits p c s n s') : (s'.procs p).state = .RUNNABLE := by
  cases waits <;> assumption

theorem Waits.ahead {n : Nat} (waits : Waits p c s n s') : n + (s'.cpus c).sched.ahead p ≤ (s.cpus c).sched.ahead p := by
  induction waits with
  | start => rw [Nat.zero_add]
  | step run taken ready ih =>
    have moved := step_ahead run.ready ready taken c
    omega

/-- While a process is `RUNNABLE`, whatever the other processes and CPUs do, each CPU chooses
    others fewer than `NPROC` times. -/
theorem bounded_waiting {n : Nat} (waits : Waits p c s n s') : n < NPROC := by
  have ahead := waits.ahead
  have small : (s.cpus c).sched.ahead p < NPROC := by
    cases (s.cpus c).sched with
    | chosen q =>
      rw [Scheduler.ahead]
      split
      · decide
      · exact before_lt p _
    | _ => exact before_lt p _
  omega

end

/-- The loop comes to the first entry before it comes to the second. -/
theorem bounded_waiting_second : ∃ (s t : State Unit Unit Unit) (n : Nat), n = 1 ∧ Waits ⟨1,by decide⟩ () s n t ∧ n < NPROC := by
  let ready : State Unit Unit Unit := { State.init Unit Unit Unit fun _ => ⟨0,[],fun _ => false⟩ with
    procs := fun _ => ⟨.RUNNABLE,1,none,none,false,0,⟨0,[],fun _ => false⟩⟩ }
  have start : Waits ⟨1,by decide⟩ () ready 0 ready := .start rfl
  have waits := Waits.step (a := .scheduler ()) (.step (a := .scheduler ()) start rfl rfl) rfl rfl
  exact ⟨ready,_,_,rfl,waits,bounded_waiting waits⟩

end Osce.Procs
