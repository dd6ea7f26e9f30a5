import Osce.Proc.Ledger

/-!
Processes looked up by their pid. `kill` and `pstat` compare the pid alone, but an unused entry has
one too: 0 when it was never used or its process has been waited for, and an old one after a `fork`
that failed.
-/
namespace Osce.Procs
open Osce.Lib
open Function (update update_of_ne update_self)
set_option linter.unusedSectionVars false

variable {C K A : Type} [DecidableEq C] [DecidableEq K] [DecidableEq A]

/-- `kill` and `pstat` are called with no pid that an unused entry has, and `kill` with none that
    the entry of a `fork` under way has. -/
def State.Named (s : State C K A) : Action C K A → Prop
  | .call _ (.kill pid) => ∀ q, (s.procs q).pid = pid → (s.procs q).state ≠ .UNUSED ∧ (s.procs q).state ≠ .EMBRYO
  | .call _ (.pstat pid) => ∀ q, (s.procs q).pid = pid → (s.procs q).state ≠ .UNUSED
  | _ => True

instance (s : State C K A) : (a : Action C K A) → Decidable (s.Named a)
  | .call _ (.kill pid) =>
    inferInstanceAs (Decidable (∀ q, (s.procs q).pid = pid → (s.procs q).state ≠ .UNUSED ∧ (s.procs q).state ≠ .EMBRYO))
  | .call _ (.pstat pid) => inferInstanceAs (Decidable (∀ q, (s.procs q).pid = pid → (s.procs q).state ≠ .UNUSED))
  | .call _ (.acquire _) | .call _ (.release _) | .yield _ | .call _ (.sleep _ _) | .call _ (.wakeup _) | .call _ .fork
  | .call _ (.exit _) | .call _ (.wait _) | .call _ .trap | .call _ (.change _) => isTrue trivial
  | .scheduler _ | .interrupt _ _ | .turn _ _ => isTrue trivial

def State.Unmarked (s : State C K A) : Prop :=
  ∀ q, (s.procs q).state = .UNUSED ∨ (s.procs q).state = .EMBRYO → (s.procs q).killed = false

section
variable {s s' : State C K A} {a : Action C K A} {c : C} {p q : Slot} {pid : Int}

theorem State.Unmarked.step (unmarked : s.Unmarked) (e : Exclusive s.state s.table s.cpus s.pos) (named : s.Named a)
    (effect : Effect s a s') : s'.Unmarked := by
  -- the entry of a `fork` keeps its mark
  have forked {p np : Slot} {pr : Proc A} (child : (s.pos p).child = some np) (procs : s'.procs = update s.procs np pr)
      (killed : pr.killed = (s.procs np).killed) : s'.Unmarked := by
    intro q fresh
    rw [procs] at fresh ⊢
    by_cases same : q = np
    · rw [same,update_self,killed]
      exact unmarked np (.inr (e.embryo p np child).1)
    · rw [update_of_ne same] at fresh ⊢
      exact unmarked q fresh
  cases effect with
  | quiet quiet =>
    intro q fresh
    have entry := quiet.entry q
    rw [entry.dead not_live_unused,entry.dead not_live_embryo] at fresh
    rcases quiet.killed q with same | live | ⟨c,pid,rfl,found⟩
    · rw [same]
      exact unmarked q fresh
    · rcases fresh with unused | embryo
      · exact absurd (unused ▸ live) not_live_unused
      · exact absurd (embryo ▸ live) not_live_embryo
    · obtain ⟨used,grown⟩ := named q (find_some found)
      exact (fresh.elim used grown).elim
  | full procs pos history =>
    intro q
    rw [procs]
    exact unmarked q
  | forks p np here found procs pos history =>
    intro q fresh
    rw [procs] at fresh ⊢
    by_cases same : q = np
    · rw [same,update_self]
      exact unmarked np (.inl found)
    · rw [update_of_ne same] at fresh ⊢
      exact unmarked q fresh
  | copies p np image here procs pos history => exact forked (p := p) (by rw [here]; rfl) procs rfl
  | fails p np here procs pos history => exact forked (p := p) (by rcases here with here | here <;> rw [here] <;> rfl) procs rfl
  | starts p np here procs pos history => exact forked (p := p) (by rw [here]; rfl) procs rfl
  | dies p here procs pos history =>
    intro q fresh
    rw [procs] at fresh ⊢
    by_cases same : q = p
    · rw [same,exit_self] at fresh
      rcases fresh with h | h <;> cases h
    · rw [exit_dead _ same not_live_unused,exit_dead _ same not_live_embryo] at fresh
      rw [exit_other _ same]
      exact unmarked q fresh
  | reaps p q status here child dead procs pos history =>
    intro r fresh
    rw [procs,reap] at fresh ⊢
    by_cases same : r = q
    · rw [same,update_self]
    · rw [update_of_ne same] at fresh ⊢
      exact unmarked r fresh

theorem unmarked_init (image : Slot → Image) : (State.init C K A image).Unmarked := by
  intro q _
  simp only [State.init]
  split <;> rfl

theorem kill_zero : (kill s.procs pid).1 = 0 ↔ ∃ q, (s.procs q).pid = pid := by
  unfold kill
  split
  · rename_i p found
    exact ⟨fun _ => ⟨p,find_some found⟩,fun _ => rfl⟩
  · rename_i absent
    refine ⟨nofun,?_⟩
    rintro ⟨q,has⟩
    exact absurd has (find_none absent q)

theorem pstat_zero : (pstat s.procs pid).1 = 0 ↔ ∃ q, (s.procs q).pid = pid := by
  unfold pstat
  split
  · rename_i p found
    exact ⟨fun _ => ⟨p,find_some found⟩,fun _ => rfl⟩
  · rename_i absent
    refine ⟨nofun,?_⟩
    rintro ⟨q,has⟩
    exact absurd has (find_none absent q)

theorem kill_only : (kill s.procs pid).1 = 0 →
    ∃ q, (s.procs q).pid = pid ∧ ((kill s.procs pid).2 q).killed = true ∧ ∀ r, r ≠ q → (kill s.procs pid).2 r = s.procs r := by
  unfold kill
  split
  · rename_i p found
    intro _
    refine ⟨p,find_some found,?_,fun r other => update_of_ne other _ _⟩
    simp only [update_self]
  · exact nofun

theorem kill_none : (kill s.procs pid).1 ≠ 0 → (kill s.procs pid).2 = s.procs := by
  unfold kill
  split
  · exact fun h => absurd rfl h
  · exact fun _ => rfl

end

/-- In every run whose calls of `kill` and `pstat` name no entry that has not started, they succeed
    exactly if a process has the pid, `kill` changes that process alone, and a process that
    `fork` starts is not marked. -/
theorem pid_lookup_live {image : Slot → Image} {s : State C K A}
    (reachable : Steps.Reachable step State.Named (State.init C K A image) s) :
    (∀ c p pid s', (s.cpus c).stack = some p → s.Named (.call c (.kill pid)) → step s (.call c (.kill pid)) = some (.ok s') →
      (s'.ret p = 0 ↔ ∃ q, (s.procs q).pid = pid ∧ (s.procs q).state ≠ .UNUSED) ∧
      (s'.ret p = 0 → ∃ q, (s.procs q).pid = pid ∧ (s'.procs q).killed = true ∧ ∀ r, r ≠ q → s'.procs r = s.procs r) ∧
      (s'.ret p ≠ 0 → s'.procs = s.procs)) ∧
    (∀ c p pid s', (s.cpus c).stack = some p → s.Named (.call c (.pstat pid)) → step s (.call c (.pstat pid)) = some (.ok s') →
      (s'.ret p = 0 ↔ ∃ q, (s.procs q).pid = pid ∧ (s.procs q).state ≠ .UNUSED) ∧ s'.procs = s.procs) ∧
    ∀ c p np ok s', (s.cpus c).stack = some p → s.pos p = .forkCopy np → step s (.turn c ok) = some (.ok s') →
      (s'.procs np).state = .RUNNABLE ∧ (s'.procs np).killed = false := by
  have run : Reachable image s := reachable.weaken fun _ _ _ => trivial
  have unmarked : s.Unmarked := Steps.Reachable.invariant (I := State.Unmarked) reachable (unmarked_init image)
    fun t b t' before unmarked named taken => by
      have usual : Reachable image t := before.weaken fun _ _ _ => trivial
      exact unmarked.step usual.exclusive named (usual.effect taken)
  refine ⟨?_,?_,?_⟩
  · intro c p pid s' on named taken
    simp only [step,on] at taken
    split at taken
    · simp only [State.call] at taken
      obtain ⟨free,rfl⟩ := critical_ok taken
      have ret : (s.returns p (kill s.procs pid).1).ret p = (kill s.procs pid).1 := update_self _ _ _
      simp only [ret]
      refine ⟨kill_zero.trans ⟨?_,?_⟩,kill_only,kill_none⟩
      · rintro ⟨q,has⟩
        exact ⟨q,has,(named q has).1⟩
      · rintro ⟨q,has,-⟩
        exact ⟨q,has⟩
    · cases taken
  · intro c p pid s' on named taken
    simp only [step,on] at taken
    split at taken
    · simp only [State.call] at taken
      obtain ⟨free,rfl⟩ := critical_ok taken
      have ret : (s.returns p (pstat s.procs pid).1).ret p = (pstat s.procs pid).1 := update_self _ _ _
      refine ⟨?_,rfl⟩
      rw [ret]
      refine pstat_zero.trans ⟨?_,?_⟩
      · rintro ⟨q,has⟩
        exact ⟨q,has,named q has⟩
      · rintro ⟨q,has,-⟩
        exact ⟨q,has⟩
    · cases taken
  · intro c p np ok s' on here taken
    simp only [step,on,State.turn,here] at taken
    obtain ⟨free,rfl⟩ := critical_ok taken
    have embryo := (run.exclusive.embryo p np (by rw [here]; rfl)).1
    simp only [State.returns,State.goto,State.setProc,update_self]
    exact ⟨trivial,unmarked np (.inr embryo)⟩

theorem pid_lookup_live_child : ∃ s s', Steps.run step State.Named (State.init Bool Unit Unit empty) forked = some s ∧
    step s (.call false (.kill 2)) = some (.ok s') ∧ s'.ret initproc = 0 ∧
    ∃ q, (s.procs q).pid = 2 ∧ (s'.procs q).killed = true ∧ ∀ r, r ≠ q → s'.procs r = s.procs r := by
  have facts : (Steps.run step State.Named (State.init Bool Unit Unit empty) forked).any (fun s =>
      decide ((s.cpus false).stack = some initproc) && decide (s.Named (.call false (.kill 2))) &&
      (step s (.call false (.kill 2))).any fun r => r.toOption.any fun s' => decide (s'.ret initproc = 0)) = true := by decide +kernel
  obtain ⟨s,run,holds⟩ := (Option.any_eq_true _ _).mp facts
  simp only [Bool.and_eq_true,decide_eq_true_eq] at holds
  obtain ⟨⟨on,named⟩,kills⟩ := holds
  obtain ⟨r,taken,returns⟩ := (Option.any_eq_true _ _).mp kills
  obtain ⟨s',isOk,ret⟩ := (Option.any_eq_true _ _).mp returns
  obtain rfl : r = .ok s' := by
    cases r with
    | error message => cases isOk
    | ok s'' => exact congrArg Except.ok (Option.some.inj isOk)
  rw [decide_eq_true_eq] at ret
  obtain ⟨-,only,-⟩ := (pid_lookup_live (Steps.reachable_run .start run)).1 false _ _ _ on named taken
  exact ⟨s,_,run,taken,ret,only ret⟩

def booted : List (Action Bool Unit Unit) := List.replicate 4 (.scheduler false) ++ [.turn false true]

def killsZero : List (Action Bool Unit Unit) := [.call false (.kill 0),.call false .fork] ++ List.replicate 3 (.turn false true)

/-- Both lookups succeed for the pid 0, which no process has, and the next child starts killed. -/
theorem pid_lookup_unused : ∃ s s', after booted = some s ∧ (∀ q, (s.procs q).pid = 0 → (s.procs q).state = .UNUSED) ∧
    (kill s.procs 0).1 = 0 ∧ (pstat s.procs 0).1 = 0 ∧ Steps.run step (fun _ _ => True) s killsZero = some s' ∧
    s'.ret initproc = 2 ∧ (s'.procs secondSlot).pid = 2 ∧ (s'.procs secondSlot).state = .RUNNABLE ∧
    (s'.procs secondSlot).killed = true := by
  have facts : (after booted).any (fun s => decide (∀ q, (s.procs q).pid = 0 → (s.procs q).state = .UNUSED) &&
      decide ((kill s.procs 0).1 = 0) && decide ((pstat s.procs 0).1 = 0) &&
      (Steps.run step (fun _ _ => True) s killsZero).any fun s' =>
        decide (s'.ret initproc = 2) && decide ((s'.procs secondSlot).pid = 2) &&
        decide ((s'.procs secondSlot).state = .RUNNABLE) && (s'.procs secondSlot).killed) = true := by decide +kernel
  obtain ⟨s,run,holds⟩ := (Option.any_eq_true _ _).mp facts
  simp only [Bool.and_eq_true,decide_eq_true_eq] at holds
  obtain ⟨⟨⟨unused,killed⟩,stat⟩,later⟩ := holds
  obtain ⟨s',path,holds⟩ := (Option.any_eq_true _ _).mp later
  simp only [Bool.and_eq_true,decide_eq_true_eq] at holds
  obtain ⟨⟨⟨child,pid⟩,ready⟩,marked⟩ := holds
  exact ⟨s,s',run,unused,killed,stat,path,child,pid,ready,marked⟩

end Osce.Procs
