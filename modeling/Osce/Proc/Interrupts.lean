import Osce.Lib.Steps

/-!
Interrupts on one CPU: `pushcli` and `popcli`, the spin locks that call them, and the way of
a process through `sched`, whose variable `intena` keeps the state of the interrupts for it.
-/
namespace Osce.Procs.Interrupts
open Osce.Lib Function
set_option linter.unusedSectionVars false

inductive Thread (T : Type) where
  | scheduler
  /-- A new process, which is about to release `ptable.lock` in `forkret`. -/
  | forkret (p : T)
  | process (p : T)
  deriving DecidableEq

structure State (T L : Type) where
  /-- `FL_IF` -/
  flag : Bool
  ncli : Nat
  intena : Bool
  /-- The locks that this CPU holds. -/
  held : Finset L
  /-- The sections of `pushcli` that are open, without those of the locks. -/
  sections : Nat
  thread : Thread T
  /-- The variable `intena` of a process that is in `sched`. -/
  saved : T → Option Bool
  /-- What `FL_IF` was before the calls of `pushcli` that a process has not undone yet, the last one first. -/
  before : T → List Bool

section
variable {T L : Type} [DecidableEq T] [DecidableEq L]

def State.record (s : State T L) (f : List Bool → List Bool) (p : T) : List Bool :=
  if s.thread = .process p then f (s.before p) else s.before p

def pushcli (s : State T L) : State T L :=
  { s with flag := false, ncli := s.ncli + 1, intena := if s.ncli = 0 then s.flag else s.intena, before := s.record (s.flag :: ·) }

def popcli (s : State T L) : Except String (State T L) :=
  if s.flag then .error "popcli - interruptible"
  else if s.ncli = 0 then .error "popcli"
  else .ok { s with flag := decide (s.ncli = 1) && s.intena, ncli := s.ncli - 1, before := s.record List.tail }

def acquire (lk : L) (s : State T L) : Except String (State T L) :=
  let s := pushcli s
  if lk ∈ s.held then .error "acquire" else .ok { s with held := insert lk s.held }

def release (lk : L) (s : State T L) : Except String (State T L) :=
  if lk ∈ s.held then popcli { s with held := s.held.erase lk } else .error "release"

/-- `sched` up to `swtch`. -/
def sched (ptable : L) (p : T) (s : State T L) : Except String (State T L) :=
  if ptable ∉ s.held then .error "sched ptable.lock"
  else if s.ncli ≠ 1 then .error "sched locks"
  else if s.flag then .error "sched interruptible"
  else .ok { s with thread := .scheduler, saved := Function.update s.saved p (some s.intena) }

/-- `swtch` of the scheduler, and the rest of `sched`; a new process goes to `forkret`. -/
def swtch (p : T) (s : State T L) : State T L :=
  match s.saved p with
  | some intena => { s with thread := .process p, intena, saved := Function.update s.saved p none }
  | none => { s with thread := .forkret p }

inductive Action (T L : Type) where
  | pushcli
  | popcli
  | acquire (lk : L)
  | release (lk : L)
  | sched
  | swtch (p : T)
  | forkret
  | interrupt
  /-- `sti` of the scheduler, or a return from a trap. -/
  | enable
  deriving DecidableEq

def step (ptable : L) (s : State T L) : Action T L → Option (Except String (State T L))
  | .pushcli => some (.ok { pushcli s with sections := s.sections + 1 })
  | .popcli => if s.sections = 0 then none else some (popcli { s with sections := s.sections - 1 })
  | .acquire lk => some (acquire lk s)
  | .release lk => some (release lk s)
  | .sched =>
    match s.thread with
    | .process p => some (sched ptable p s)
    | _ => none
  | .swtch p =>
    match s.thread with
    | .scheduler => if s.held = {ptable} ∧ s.sections = 0 then some (.ok (swtch p s)) else none
    | _ => none
  | .forkret =>
    match s.thread with
    | .forkret p => some ((release ptable s).map fun s => { s with thread := .process p })
    | _ => none
  | .interrupt => if s.flag then some (.ok { s with flag := false }) else none
  | .enable => if s.held = ∅ ∧ s.sections = 0 then some (.ok { s with flag := true }) else none

/-- A new process begins with the release in `forkret`. -/
def allowed (s : State T L) (a : Action T L) : Prop := ∀ p, s.thread = .forkret p → a = .forkret

instance [Fintype T] (s : State T L) (a : Action T L) : Decidable (allowed s a) :=
  inferInstanceAs (Decidable (∀ p, s.thread = .forkret p → a = .forkret))

def Reachable (ptable : L) : State T L → Prop :=
  Steps.Reachable (step ptable) allowed ⟨false,0,false,∅,0,.scheduler,fun _ => none,fun _ => []⟩

variable {ptable : L} {s s' : State T L} {n : Nat} {p : T}

/-- The state with `n` calls of `pushcli` that are not undone. -/
structure Nested (s : State T L) (n : Nat) : Prop where
  count : s.ncli = n
  off : n ≠ 0 → s.flag = false
  idle : ∀ p, s.thread ≠ .process p → s.before p = (s.saved p).toList
  running : ∀ p, s.thread = .process p → s.saved p = none ∧ (s.before p).length = n ∧ ∀ b ∈ (s.before p).getLast?, b = s.intena

theorem pushcli_before (runs : s.thread = .process p) : (pushcli s).before p = s.flag :: s.before p := if_pos runs

theorem Nested.pushcli (nested : Nested s n) : Nested (pushcli s) (n + 1) := by
  refine ⟨congrArg (· + 1) nested.count,fun _ => rfl,fun p other => (if_neg other).trans (nested.idle p other),fun p runs => ?_⟩
  obtain ⟨notSaved,length,outermost⟩ := nested.running p runs
  rw [pushcli_before (s := s) runs,List.length_cons,length]
  refine ⟨notSaved,rfl,fun b last => ?_⟩
  rw [Interrupts.pushcli,nested.count,← length]
  cases calls : s.before p with
  | nil =>
    rw [calls] at last
    exact (Option.some.inj last).symm
  | cons first rest =>
    rw [calls,List.getLast?_cons_cons,← calls] at last
    exact outermost b last

/-- One call of `pushcli` is undone; with the outermost one a process gets its state of the interrupts back. -/
theorem Nested.popcli (nested : Nested s (n + 1)) : ∃ s', popcli s = .ok s' ∧ Nested s' n ∧ (s'.held = s.held ∧ s'.sections = s.sections ∧
    s'.thread = s.thread ∧ s'.saved = s.saved) ∧ ∀ p b, s.thread = .process p → s.before p = [b] → s'.flag = b := by
  have count := nested.count
  rw [Interrupts.popcli,if_neg (by simp [nested.off]),if_neg (by omega)]
  refine ⟨_,rfl,⟨congrArg (· - 1) count,fun more => by simp [count,more],fun p other => (if_neg other).trans (nested.idle p other),fun p runs => ?_⟩,
    ⟨rfl,rfl,rfl,rfl⟩,fun p b runs one => ?_⟩ <;>
    obtain ⟨notSaved,length,outermost⟩ := nested.running p runs
  · dsimp only
    rw [State.record,if_pos runs,List.length_tail,length]
    refine ⟨notSaved,rfl,fun b last => outermost b ?_⟩
    rcases calls : s.before p with - | ⟨first,- | ⟨second,rest⟩⟩ <;> rw [calls] at last
    · cases last
    · cases last
    · exact last
  · rw [one] at length outermost
    simp [count,outermost b rfl,show n = 0 by simpa using length.symm]

structure Inv (ptable : L) (s : State T L) : Prop where
  nested : Nested s (s.held.card + s.sections)
  starts : ∀ p, s.thread = .forkret p → s.held = {ptable} ∧ s.sections = 0 ∧ s.saved p = none

/-- A step that is taken keeps the invariant and gives a process back what it had; `popcli` does not panic. -/
def Fine (ptable : L) (s : State T L) : Except String (State T L) → Prop
  | .error e => e ≠ "popcli" ∧ e ≠ "popcli - interruptible"
  | .ok s' => Inv ptable s' ∧ ∀ p b, s.thread = .process p → s.before p = [b] → s'.before p = [] → s'.flag = b

theorem Nested.fine (nested : Nested s (s.held.card + s.sections + 1)) (started : ∀ p, s.thread ≠ .forkret p) : Fine ptable s (Interrupts.popcli s) := by
  obtain ⟨s',run,nested',⟨held,sections,thread,-⟩,back⟩ := nested.popcli
  rw [run]
  exact ⟨⟨by rwa [held,sections],fun p isNew => absurd (thread ▸ isNew) (started p)⟩,fun p b runs one _ => back p b runs one⟩

theorem Nested.erase {lk : L} (nested : Nested s (s.held.card + s.sections)) (holds : lk ∈ s.held) :
    Nested { s with held := s.held.erase lk } ((s.held.erase lk).card + s.sections + 1) := by
  rw [Nat.add_right_comm,Finset.card_erase_add_one holds]
  exact ⟨nested.count,nested.off,nested.idle,nested.running⟩

/-- A step after which more calls of `pushcli` are to be undone, or as many. -/
theorem Inv.fine_of_kept (nested : Nested s' (s'.held.card + s'.sections)) (thread : ∀ p, s'.thread ≠ .forkret p)
    (kept : ∀ p, s.thread = .process p → s.before p ≠ [] → s'.before p ≠ []) : Fine ptable s (.ok s') :=
  ⟨⟨nested,fun p isNew => absurd isNew (thread p)⟩,fun p b runs one none => absurd none (kept p runs (by simp [one]))⟩

theorem Inv.step_fine (inv : Inv ptable s) {a : Action T L} {r : Except String (State T L)} (meets : allowed s a) (taken : step ptable s a = some r) :
    Fine ptable s r := by
  have nested := inv.nested
  have started (other : a ≠ .forkret) (p : T) : s.thread ≠ .forkret p := fun isNew => other (meets p isNew)
  have pushed (p : T) (runs : s.thread = .process p) : (pushcli s).before p ≠ [] := by
    rw [pushcli_before runs]
    exact List.cons_ne_nil _ _
  cases a <;> simp only [step] at taken
  case pushcli =>
    cases taken
    have more := nested.pushcli
    exact Inv.fine_of_kept ⟨more.count,more.off,more.idle,more.running⟩ (started nofun) fun p runs _ => pushed p runs
  case popcli =>
    split_ifs at taken with none
    cases taken
    refine Nested.fine (s := { s with sections := s.sections - 1 }) ?_ (started nofun)
    rw [Nat.add_assoc,Nat.sub_add_cancel (Nat.pos_of_ne_zero none)]
    exact ⟨nested.count,nested.off,nested.idle,nested.running⟩
  case acquire lk =>
    cases taken
    rw [acquire]
    split_ifs with holds
    · exact ⟨by decide,by decide⟩
    · have more := nested.pushcli
      have count : (insert lk s.held).card + s.sections = s.held.card + s.sections + 1 := by
        rw [Finset.card_insert_of_notMem (s := s.held) holds,Nat.add_right_comm]
      refine Inv.fine_of_kept ?_ (started nofun) fun p runs _ => pushed p runs
      show Nested _ ((insert lk s.held).card + s.sections)
      rw [count]
      exact ⟨more.count,more.off,more.idle,more.running⟩
  case release lk =>
    cases taken
    rw [release]
    split_ifs with holds
    · exact (nested.erase holds).fine (started nofun)
    · exact ⟨by decide,by decide⟩
  case sched =>
    split at taken
    · rename_i p runs
      cases taken
      rw [sched]
      split_ifs with holds locks
      · exact ⟨by decide,by decide⟩
      · exact ⟨by decide,by decide⟩
      · obtain ⟨-,length,outermost⟩ := nested.running p runs
        refine Inv.fine_of_kept ⟨nested.count,nested.off,fun q _ => ?_,nofun⟩ nofun fun q _ => id
        by_cases same : q = p
        · subst same
          obtain ⟨b,one⟩ := List.length_eq_one_iff.mp (length.trans (nested.count.symm.trans (not_not.mp locks)))
          rw [one] at outermost
          simp [one,outermost b rfl]
        · dsimp only
          rw [update_of_ne same]
          exact nested.idle q (by simpa [runs] using Ne.symm same)
      · exact ⟨by decide,by decide⟩
    · cases taken
  case swtch p =>
    split at taken
    · rename_i runs
      split_ifs at taken with only
      cases taken
      have idle (q : T) := nested.idle q (by rw [runs]; exact nofun)
      have one : s.held.card + s.sections = 1 := by rw [only.1,only.2,Finset.card_singleton]
      refine ⟨?_,fun q b isQ => by rw [runs] at isQ; cases isQ⟩
      rw [swtch]
      cases isSaved : s.saved p with
      | none => exact ⟨⟨nested.count,nested.off,fun q _ => idle q,nofun⟩,fun q isNew => ⟨only.1,only.2,by cases isNew; exact isSaved⟩⟩
      | some b =>
        refine ⟨⟨nested.count,nested.off,fun q other => ?_,fun q isP => ?_⟩,nofun⟩
        · dsimp only
          rw [update_of_ne fun same => other (by rw [same])]
          exact idle q
        · cases isP
          have single := idle p
          rw [isSaved] at single
          refine ⟨update_self ..,?_⟩
          rw [single]
          exact ⟨one.symm,fun b' last => (Option.some.inj last).symm⟩
    · cases taken
  case forkret =>
    split at taken
    · rename_i p runs
      cases taken
      obtain ⟨only,noSection,notSaved⟩ := inv.starts p runs
      have holds : ptable ∈ s.held := by rw [only]; exact Finset.mem_singleton_self _
      obtain ⟨s',run,nested',⟨held,sections,thread,saved⟩,-⟩ := (nested.erase holds).popcli
      rw [release,if_pos holds,run]
      have idle (q : T) := nested'.idle q (by rw [thread,runs]; exact nofun)
      have none : (s.held.erase ptable).card + s.sections = 0 := by rw [only,noSection]; simp
      refine ⟨⟨⟨by simpa [held,sections] using nested'.count,by simp [held,sections,none],fun q _ => idle q,fun q isP => ?_⟩,nofun⟩,
        fun q b isQ => by rw [runs] at isQ; cases isQ⟩
      cases isP
      have new := idle p
      rw [saved,notSaved] at new
      simp [new,saved,notSaved,held,sections,none]
    · cases taken
  case interrupt =>
    split_ifs at taken
    cases taken
    exact Inv.fine_of_kept ⟨nested.count,fun _ => rfl,nested.idle,nested.running⟩ (started nofun) fun p _ => id
  case enable =>
    split_ifs at taken with none
    cases taken
    refine Inv.fine_of_kept ⟨nested.count,fun more => ?_,nested.idle,nested.running⟩ (started nofun) fun p _ => id
    simp [none] at more

theorem Reachable.inv (reachable : Reachable ptable s) : Inv ptable s :=
  Steps.Reachable.invariant reachable ⟨⟨rfl,fun _ => rfl,fun _ _ => rfl,nofun⟩,nofun⟩
    fun _ _ _ _ inv meets taken => (inv.step_fine meets taken).1

/-- While the CPU holds a lock its interrupts are off, `ncli` counts the locks and the open
    sections, `popcli` does not panic, and a process whose last call of `pushcli` is undone gets
    back the state of the interrupts before its outermost one. -/
theorem interrupts_nest (reachable : Reachable ptable s) :
    (s.held ≠ ∅ → s.flag = false) ∧ s.ncli = s.held.card + s.sections ∧
    (∀ a, allowed s a → step ptable s a ≠ some (.error "popcli") ∧ step ptable s a ≠ some (.error "popcli - interruptible")) ∧
    ∀ a s' p b, allowed s a → step ptable s a = some (.ok s') → s.thread = .process p → s.before p = [b] → s'.before p = [] → s'.flag = b := by
  have inv := reachable.inv
  refine ⟨fun some' => inv.nested.off ?_,inv.nested.count,fun a meets => ⟨fun stops => ?_,fun stops => ?_⟩,fun a s' p b meets taken => ?_⟩
  · have := Finset.card_ne_zero.mpr (Finset.nonempty_iff_ne_empty.mpr some')
    omega
  · exact (inv.step_fine meets stops).1 rfl
  · exact (inv.step_fine meets stops).2 rfl
  · exact (inv.step_fine meets taken).2 p b

/-- The first process calls `sched` with interrupts on before its `acquire`; the second one, whose interrupts are off, does so too. -/
def takesTurns : List (Action Bool Unit) :=
  [.acquire (),.swtch false,.forkret,.enable,.acquire (),.sched,.swtch true,.forkret,.interrupt,.acquire (),.sched,.swtch false]

theorem interrupts_nest_sched : ∃ s : State Bool Unit, Reachable () s ∧ s.thread = .process false ∧ s.before true = [false] ∧ s.flag = false ∧
    ∃ s', step () s (.release ()) = some (.ok s') ∧ s'.flag = true := by
  have run : Steps.run (step ()) allowed ⟨false,0,false,∅,0,.scheduler,fun _ => none,fun _ => []⟩ takesTurns = some _ := rfl
  have reachable : Reachable () _ := Steps.reachable_run .start run
  obtain ⟨off,-,-,back⟩ := interrupts_nest reachable
  exact ⟨_,reachable,rfl,rfl,off (by decide),_,rfl,back (.release ()) _ false true (by decide) rfl rfl rfl rfl⟩

end

end Osce.Procs.Interrupts
