import Osce.Lib.Steps
import Osce.Log.Code

/-!
The protocol of `begin_op`, `log_write` and `end_op`. Any number of processes go
through them, and each step is what one process does in one section under
`log.lock`, or between two such sections. `commit` runs without the lock: what it
does to the log's variables is the reset of `log.lh.n`.
-/
namespace Osce.Log.Protocol
open Osce.Lib Osce.Layout Osce.Log Function
set_option linter.unusedSectionVars false

inductive Pc where
  | outside
  /-- In the loop of `begin_op`, before its test. -/
  | entering
  /-- Asleep on `&log` in `begin_op`. -/
  | asleep
  | inOp
  /-- In `log_write`, past the tests that it makes without the lock. -/
  | logging (sector : Nat)
  /-- In `commit`, before it resets `log.lh.n`. -/
  | committing
  /-- After `commit`, before the last section of `end_op`. -/
  | committed
  deriving DecidableEq, Repr

def Pc.isInOp : Pc → Bool
  | .inOp => true
  | .logging _ => true
  | _ => false

def Pc.commits : Pc → Bool
  | .committing => true
  | .committed => true
  | _ => false

/-- A sector that an operation has logged, and the number of the transaction that was
    then being built. -/
structure Event where
  op : Nat
  sector : Nat
  txn : Nat

/-- `log.outstanding`, `log.committing`, `log.lh.sector[0..n)` and the processes. The
    list may outgrow the array: `log_write` makes its test without the lock, and what
    lies in memory behind the array is not modelled. The rest is history: how many
    operations have begun, which one each process is in, what they have logged, and
    the transactions committed so far. -/
structure State (P : Type) where
  outstanding : Int
  committing : Bool
  lh : List Nat
  pc : P → Pc
  ops : Nat
  op : P → Nat
  events : List Event
  committed : List (List Nat)

variable {P : Type} [DecidableEq P]

/-- The log after `recover_from_log`, with no process in it. -/
def State.init (P : Type) : State P := ⟨0,false,[],fun _ => .outside,0,fun _ => 0,[],[]⟩

inductive Action (P : Type) where
  | begin_op (p : P)
  /-- One turn of the loop of `begin_op`. -/
  | test (p : P)
  | kill (p : P)
  | log_write (p : P) (sector : Nat)
  /-- The section of `log_write` under the lock. -/
  | append (p : P)
  | end_op (p : P)
  /-- `commit` has written the transaction and resets `log.lh.n`. -/
  | install (p : P)
  | finish (p : P)

def wakeup (pc : P → Pc) : P → Pc := fun p => if pc p = .asleep then .entering else pc p

/-- One step, where the process stands at its start: the new state, or the message of
    a panic. -/
def step (log : LogArea) (s : State P) : Action P → Option (Except String (State P))
  | .begin_op p =>
    if s.pc p = .outside then some (.ok { s with pc := Function.update s.pc p .entering }) else none
  | .test p =>
    if s.pc p = .entering then
      if s.committing then some (.ok { s with pc := Function.update s.pc p .asleep })
      else if s.lh.length + (s.outstanding + 1) * MAXOPBLOCKS > LOGSIZE then
        -- this op might exhaust log space; wait for commit.
        some (.ok { s with pc := Function.update s.pc p .asleep })
      else some (.ok { s with
        outstanding := s.outstanding + 1
        pc := Function.update s.pc p .inOp
        ops := s.ops + 1
        op := Function.update s.op p s.ops })
    else none
  | .kill p =>
    if s.pc p = .asleep then some (.ok { s with pc := Function.update s.pc p .entering }) else none
  | .log_write p sector =>
    if s.pc p = .inOp then
      if s.lh.length ≥ LOGSIZE ∨ s.lh.length + 1 ≥ log.size then some (.error "too big a transaction")
      else if s.outstanding < 1 then some (.error "log_write outside of trans")
      else some (.ok { s with pc := Function.update s.pc p (.logging sector) })
    else none
  | .append p =>
    match s.pc p with
    | .logging sector => some (.ok { s with
        lh := absorb s.lh sector
        pc := Function.update s.pc p .inOp
        events := ⟨s.op p,sector,s.committed.length⟩ :: s.events })
    | _ => none
  | .end_op p =>
    if s.pc p = .inOp then
      if s.committing then some (.error "log.committing")
      else if s.outstanding - 1 = 0 then some (.ok { s with
        outstanding := s.outstanding - 1
        committing := true
        pc := Function.update s.pc p .committing })
      else some (.ok { s with
        outstanding := s.outstanding - 1
        -- begin_op() may be waiting for log space.
        pc := wakeup (Function.update s.pc p .outside) })
    else none
  | .install p =>
    if s.pc p = .committing then some (.ok { s with
      lh := []
      pc := Function.update s.pc p .committed
      committed := s.committed ++ [s.lh] })
    else none
  | .finish p =>
    if s.pc p = .committed then some (.ok { s with
      committing := false
      pc := wakeup (Function.update s.pc p .outside) })
    else none

def Reachable (log : LogArea) : State P → Prop := Steps.Reachable (step log) (fun _ _ => True) (State.init P)

inductive Moves (log : LogArea) (s : State P) : Action P → State P → Prop where
  | begin_op {p : P} (here : s.pc p = .outside) :
      Moves log s (.begin_op p) { s with pc := Function.update s.pc p .entering }
  | wait {p : P} (here : s.pc p = .entering)
      (full : s.committing = true ∨ s.lh.length + (s.outstanding + 1) * MAXOPBLOCKS > LOGSIZE) :
      Moves log s (.test p) { s with pc := Function.update s.pc p .asleep }
  | enters {p : P} (here : s.pc p = .entering) (idle : s.committing = false)
      (room : s.lh.length + (s.outstanding + 1) * MAXOPBLOCKS ≤ LOGSIZE) :
      Moves log s (.test p) { s with
        outstanding := s.outstanding + 1
        pc := Function.update s.pc p .inOp
        ops := s.ops + 1
        op := Function.update s.op p s.ops }
  | kill {p : P} (here : s.pc p = .asleep) :
      Moves log s (.kill p) { s with pc := Function.update s.pc p .entering }
  | log_write {p : P} {sector : Nat} (here : s.pc p = .inOp) (small : s.lh.length < LOGSIZE)
      (room : s.lh.length + 1 < log.size) :
      Moves log s (.log_write p sector) { s with pc := Function.update s.pc p (.logging sector) }
  | append {p : P} {sector : Nat} (here : s.pc p = .logging sector) :
      Moves log s (.append p) { s with
        lh := absorb s.lh sector
        pc := Function.update s.pc p .inOp
        events := ⟨s.op p,sector,s.committed.length⟩ :: s.events }
  | last {p : P} (here : s.pc p = .inOp) (idle : s.committing = false) (alone : s.outstanding = 1) :
      Moves log s (.end_op p) { s with
        outstanding := 0
        committing := true
        pc := Function.update s.pc p .committing }
  | leave {p : P} (here : s.pc p = .inOp) (idle : s.committing = false) (others : s.outstanding ≠ 1) :
      Moves log s (.end_op p) { s with
        outstanding := s.outstanding - 1
        pc := wakeup (Function.update s.pc p .outside) }
  | install {p : P} (here : s.pc p = .committing) :
      Moves log s (.install p) { s with
        lh := []
        pc := Function.update s.pc p .committed
        committed := s.committed ++ [s.lh] }
  | finish {p : P} (here : s.pc p = .committed) :
      Moves log s (.finish p) { s with
        committing := false
        pc := wakeup (Function.update s.pc p .outside) }

theorem moves_of_step {log : LogArea} {s s' : State P} {a : Action P} (taken : step log s a = some (.ok s')) :
    Moves log s a s' := by
  cases a with
  | begin_op p =>
    simp only [step] at taken
    split at taken <;> simp only [reduceCtorEq,Option.some.injEq,Except.ok.injEq] at taken
    subst taken
    exact .begin_op ‹_›
  | test p =>
    simp only [step] at taken
    split at taken
    · split at taken
      · cases taken
        exact .wait ‹_› (.inl ‹_›)
      · split at taken
        · cases taken
          exact .wait ‹_› (.inr ‹_›)
        · cases taken
          exact .enters ‹_› (by simpa using ‹¬ s.committing = true›) (by omega)
    · cases taken
  | kill p =>
    simp only [step] at taken
    split at taken <;> simp only [reduceCtorEq,Option.some.injEq,Except.ok.injEq] at taken
    subst taken
    exact .kill ‹_›
  | log_write p sector =>
    simp only [step] at taken
    split at taken
    · split at taken
      · cases taken
      · split at taken
        · cases taken
        · cases taken
          exact .log_write ‹_› (by omega) (by omega)
    · cases taken
  | append p =>
    simp only [step] at taken
    split at taken
    · cases taken
      exact .append ‹_›
    · cases taken
  | end_op p =>
    simp only [step] at taken
    split at taken
    · split at taken
      · cases taken
      · have idle : s.committing = false := by simpa using ‹¬ s.committing = true›
        split at taken
        · have alone : s.outstanding = 1 := by omega
          cases taken
          simp only [alone]
          exact .last ‹_› idle alone
        · cases taken
          exact .leave ‹_› idle (by omega)
    · cases taken
  | install p =>
    simp only [step] at taken
    split at taken <;> simp only [reduceCtorEq,Option.some.injEq,Except.ok.injEq] at taken
    subst taken
    exact .install ‹_›
  | finish p =>
    simp only [step] at taken
    split at taken <;> simp only [reduceCtorEq,Option.some.injEq,Except.ok.injEq] at taken
    subst taken
    exact .finish ‹_›

inductive Panics (log : LogArea) (s : State P) : Action P → String → Prop where
  | full {p : P} {sector : Nat} {message : String} (here : s.pc p = .inOp)
      (full : LOGSIZE ≤ s.lh.length ∨ log.size ≤ s.lh.length + 1) (text : message = "too big a transaction") :
      Panics log s (.log_write p sector) message
  | outside {p : P} {sector : Nat} {message : String} (here : s.pc p = .inOp) (none : s.outstanding < 1)
      (text : message = "log_write outside of trans") : Panics log s (.log_write p sector) message
  | committing {p : P} {message : String} (here : s.pc p = .inOp) (busy : s.committing = true)
      (text : message = "log.committing") : Panics log s (.end_op p) message

theorem panics_of_step {log : LogArea} {s : State P} {a : Action P} {message : String}
    (stopped : step log s a = some (.error message)) : Panics log s a message := by
  cases a with
  | begin_op p => simp only [step] at stopped; split at stopped <;> simp at stopped
  | test p =>
    simp only [step] at stopped
    split at stopped
    · split at stopped
      · simp at stopped
      · split at stopped <;> simp at stopped
    · cases stopped
  | kill p => simp only [step] at stopped; split at stopped <;> simp at stopped
  | log_write p sector =>
    simp only [step] at stopped
    split at stopped
    · split at stopped
      · cases stopped
        exact .full ‹_› ‹_› rfl
      · split at stopped
        · cases stopped
          exact .outside ‹_› ‹_› rfl
        · simp at stopped
    · cases stopped
  | append p => simp only [step] at stopped; split at stopped <;> simp at stopped
  | end_op p =>
    simp only [step] at stopped
    split at stopped
    · split at stopped
      · cases stopped
        exact .committing ‹_› ‹_› rfl
      · split at stopped <;> simp at stopped
    · cases stopped
  | install p => simp only [step] at stopped; split at stopped <;> simp at stopped
  | finish p => simp only [step] at stopped; split at stopped <;> simp at stopped

@[simp] theorem isInOp_wakeup (pc : P → Pc) (p : P) : (wakeup pc p).isInOp = (pc p).isInOp := by
  unfold wakeup
  split
  · rename_i asleep; rw [asleep]; rfl
  · rfl

@[simp] theorem commits_wakeup (pc : P → Pc) (p : P) : (wakeup pc p).commits = (pc p).commits := by
  unfold wakeup
  split
  · rename_i asleep; rw [asleep]; rfl
  · rfl

theorem wakeup_awake (pc : P → Pc) (p : P) : wakeup pc p ≠ .asleep := by
  unfold wakeup
  split
  · simp
  · assumption

section
variable [Fintype P]

def inside (pc : P → Pc) : Nat := (Finset.univ.filter fun p => (pc p).isInOp).card

theorem inside_wakeup (pc : P → Pc) : inside (wakeup pc) = inside pc := by
  simp [inside]

theorem inside_enter (pc : P → Pc) (p : P) {v : Pc} (before : (pc p).isInOp = false) (after : v.isInOp = true) :
    inside (update pc p v) = inside pc + 1 := by
  have grown : (Finset.univ.filter fun q => (update pc p v q).isInOp) =
      insert p (Finset.univ.filter fun q => (pc q).isInOp) := by
    ext q
    by_cases same : q = p
    · subst same; simp [after]
    · simp [same]
  rw [inside,grown,Finset.card_insert_of_notMem (by simp [before])]
  rfl

theorem inside_same {pc : P → Pc} {p : P} {v : Pc} (same : v.isInOp = (pc p).isInOp) :
    inside (update pc p v) = inside pc := by
  have equal : (fun q => (update pc p v q).isInOp) = fun q => (pc q).isInOp := by
    funext q
    by_cases here : q = p
    · subst here; simp [same]
    · simp [here]
  unfold inside
  simp only [congrFun equal]

theorem inside_leave (pc : P → Pc) (p : P) {v : Pc} (before : (pc p).isInOp = true) (after : v.isInOp = false) :
    inside (update pc p v) + 1 = inside pc := by
  have back := inside_enter (update pc p v) p (by simp [after]) before
  rw [update_idem,update_eq_self] at back
  exact back.symm

theorem inside_pos {pc : P → Pc} {p : P} (here : (pc p).isInOp = true) : 0 < inside pc :=
  Finset.card_pos.mpr ⟨p,by simp [here]⟩

theorem inside_zero {pc : P → Pc} (none : inside pc = 0) (p : P) : (pc p).isInOp = false := by
  by_contra here
  have here : (pc p).isInOp = true := by simpa using here
  have := inside_pos here
  omega

structure Inv (s : State P) : Prop where
  counted : s.outstanding = inside s.pc
  commits : s.committing = true ↔ ∃ p, (s.pc p).commits = true
  single : ∀ p q, (s.pc p).commits = true → (s.pc q).commits = true → p = q
  quiet : s.committing = true → s.outstanding = 0
  distinct : s.lh.Nodup
  waits : ∀ p, s.pc p = .asleep → s.committing = true ∨ 0 < s.outstanding
  building : s.lh ≠ [] → (∃ p, s.pc p = .committing) ∨ 0 < s.outstanding

theorem inv_init : Inv (State.init P) := by
  refine ⟨?_,?_,?_,?_,?_,?_,?_⟩ <;> simp [State.init,inside,Pc.isInOp,Pc.commits]

/-- A step that moves one process keeps who commits, if it moves it neither into nor
    out of a commit. -/
theorem commits_update {pc : P → Pc} {p : P} {v : Pc} (same : v.commits = (pc p).commits) (q : P) :
    (update pc p v q).commits = (pc q).commits := by
  by_cases here : q = p
  · subst here; simp [same]
  · simp [here]

theorem Inv.idle {s : State P} (inv : Inv s) {p : P} (here : (s.pc p).isInOp = true) : s.committing = false := by
  by_contra busy
  have none := inv.quiet (by simpa using busy)
  have := inv.counted
  have := inside_pos here
  omega

theorem Inv.positive {s : State P} (inv : Inv s) {p : P} (here : (s.pc p).isInOp = true) : 0 < s.outstanding := by
  have := inv.counted
  have := inside_pos here
  omega

/-- A process moves without entering or leaving an operation or a commit, and goes to
    sleep only while somebody will wake it; the log header may grow meanwhile. -/
theorem Inv.relocate {s : State P} (inv : Inv s) {p : P} {v : Pc} {lh : List Nat} {events : List Event}
    (sameOp : v.isInOp = (s.pc p).isInOp) (sameCommit : v.commits = (s.pc p).commits)
    (elsewhere : s.pc p ≠ .committing) (awake : v = .asleep → s.committing = true ∨ 0 < s.outstanding)
    (distinct : lh.Nodup) (building : lh = s.lh ∨ 0 < s.outstanding) :
    Inv { s with pc := update s.pc p v, lh := lh, events := events } := by
  refine ⟨?_,?_,?_,inv.quiet,distinct,?_,?_⟩
  · rw [inside_same sameOp]
    exact inv.counted
  · simp only [commits_update sameCommit]
    exact inv.commits
  · simp only [commits_update sameCommit]
    exact inv.single
  · intro q asleep
    by_cases here : q = p
    · subst here
      exact awake (by simpa using asleep)
    · exact inv.waits q (by simpa [here] using asleep)
  · intro some
    rcases building with same | positive
    · subst same
      rcases inv.building some with ⟨q,commit⟩ | positive
      · have other : q ≠ p := by rintro rfl; exact elsewhere commit
        exact .inl ⟨q,by simpa [other] using commit⟩
      · exact .inr positive
    · exact .inr positive

theorem inv_admit {s : State P} (inv : Inv s) {p : P} {ops : Nat} {op : P → Nat} (here : s.pc p = .entering)
    (idle : s.committing = false) :
    Inv { s with outstanding := s.outstanding + 1, pc := update s.pc p .inOp, ops := ops, op := op } := by
  have sameCommit : Pc.commits .inOp = (s.pc p).commits := by rw [here]; rfl
  have counted := inv.counted
  refine ⟨?_,?_,?_,?_,inv.distinct,?_,?_⟩
  · rw [inside_enter s.pc p (by rw [here]; rfl) rfl]
    push_cast
    omega
  · simp only [commits_update sameCommit]
    exact inv.commits
  · simp only [commits_update sameCommit]
    exact inv.single
  · intro committing
    rw [idle] at committing
    cases committing
  · intro q _
    exact .inr (by simp only; omega)
  · intro _
    exact .inr (by simp only; omega)

theorem inv_last {s : State P} (inv : Inv s) {p : P} (here : s.pc p = .inOp) (idle : s.committing = false)
    (alone : s.outstanding = 1) :
    Inv { s with outstanding := 0, committing := true, pc := update s.pc p .committing } := by
  have counted := inv.counted
  have nobody : ∀ q, (s.pc q).commits = false := by
    intro q
    by_contra busy
    rw [inv.commits.mpr ⟨q,by simpa using busy⟩] at idle
    cases idle
  have only : ∀ q, (update s.pc p .committing q).commits = true → q = p := by
    intro q commits
    by_contra other
    simp [other,nobody q] at commits
  refine ⟨?_,?_,?_,fun _ => rfl,inv.distinct,fun _ _ => .inl rfl,fun _ => .inl ⟨p,by simp⟩⟩
  · have := inside_leave s.pc p (v := .committing) (by rw [here]; rfl) rfl
    simp only
    omega
  · exact ⟨fun _ => ⟨p,by simp [Pc.commits]⟩,fun _ => rfl⟩
  · intro q r first second
    rw [only q first,only r second]

theorem inv_leave {s : State P} (inv : Inv s) {p : P} (here : s.pc p = .inOp) (idle : s.committing = false)
    (others : s.outstanding ≠ 1) :
    Inv { s with outstanding := s.outstanding - 1, pc := wakeup (update s.pc p .outside) } := by
  have sameCommit : Pc.commits .outside = (s.pc p).commits := by rw [here]; rfl
  have counted := inv.counted
  have left := inside_leave s.pc p (v := .outside) (by rw [here]; rfl) rfl
  refine ⟨?_,?_,?_,?_,inv.distinct,?_,?_⟩
  · rw [inside_wakeup]
    simp only
    omega
  · simp only [commits_wakeup,commits_update sameCommit]
    exact inv.commits
  · simp only [commits_wakeup,commits_update sameCommit]
    exact inv.single
  · intro committing
    rw [idle] at committing
    cases committing
  · intro q asleep
    exact absurd asleep (wakeup_awake _ q)
  · intro _
    exact .inr (by simp only; omega)

theorem inv_install {s : State P} (inv : Inv s) {p : P} {committed : List (List Nat)} (here : s.pc p = .committing) :
    Inv { s with lh := [], pc := update s.pc p .committed, committed := committed } := by
  have sameCommit : Pc.commits .committed = (s.pc p).commits := by rw [here]; rfl
  have busy : s.committing = true := inv.commits.mpr ⟨p,by rw [here]; rfl⟩
  refine ⟨?_,?_,?_,inv.quiet,List.nodup_nil,fun _ _ => .inl busy,fun some => absurd rfl some⟩
  · rw [inside_same (by rw [here]; rfl)]
    exact inv.counted
  · simp only [commits_update sameCommit]
    exact inv.commits
  · simp only [commits_update sameCommit]
    exact inv.single

theorem inv_finish {s : State P} (inv : Inv s) {p : P} (here : s.pc p = .committed) :
    Inv { s with committing := false, pc := wakeup (update s.pc p .outside) } := by
  have commits : (s.pc p).commits = true := by rw [here]; rfl
  have busy : s.committing = true := inv.commits.mpr ⟨p,commits⟩
  have nobody : ∀ q, (update s.pc p .outside q).commits = false := by
    intro q
    by_cases same : q = p
    · subst same; simp [Pc.commits]
    · by_contra also
      exact same (inv.single q p (by simpa [same] using also) commits)
  refine ⟨?_,?_,?_,?_,inv.distinct,?_,?_⟩
  · rw [inside_wakeup,inside_same (by rw [here]; rfl)]
    exact inv.counted
  · simp [nobody]
  · intro q r first
    simp [nobody] at first
  · intro committing
    cases committing
  · intro q asleep
    exact absurd asleep (wakeup_awake _ q)
  · intro some
    -- nobody else commits, and no operation is open while this one does
    rcases inv.building some with ⟨q,commit⟩ | positive
    · have same := inv.single q p (by rw [commit]; rfl) commits
      subst same
      rw [here] at commit
      cases commit
    · have := inv.quiet busy
      omega

theorem inv_moves {log : LogArea} {s s' : State P} {a : Action P} (inv : Inv s) (moves : Moves log s a s') :
    Inv s' := by
  cases moves with
  | begin_op here =>
    exact inv.relocate (by rw [here]; rfl) (by rw [here]; rfl) (by rw [here]; simp) (by simp) inv.distinct (.inl rfl)
  | wait here full =>
    refine inv.relocate (by rw [here]; rfl) (by rw [here]; rfl) (by rw [here]; simp) (fun _ => ?_) inv.distinct (.inl rfl)
    by_cases busy : s.committing = true
    · exact .inl busy
    · -- with nothing outstanding the log is empty, and then there is room
      refine .inr ?_
      rcases full with committing | full
      · exact absurd committing busy
      · by_contra none
        have zero : s.outstanding = 0 := by
          have := inv.counted
          omega
        have empty : s.lh = [] := by
          by_contra some
          rcases inv.building some with ⟨q,commit⟩ | positive
          · exact busy (inv.commits.mpr ⟨q,by rw [commit]; rfl⟩)
          · omega
        rw [zero,empty] at full
        simp [MAXOPBLOCKS,LOGSIZE] at full
  | enters here idle room => exact inv_admit inv here idle
  | kill here =>
    exact inv.relocate (by rw [here]; rfl) (by rw [here]; rfl) (by rw [here]; simp) (by simp) inv.distinct (.inl rfl)
  | log_write here small room =>
    exact inv.relocate (by rw [here]; rfl) (by rw [here]; rfl) (by rw [here]; simp) (by simp) inv.distinct (.inl rfl)
  | append here =>
    exact inv.relocate (by rw [here]; rfl) (by rw [here]; rfl) (by rw [here]; simp) (by simp)
      (nodup_absorb _ inv.distinct) (.inr (inv.positive (by rw [here]; rfl)))
  | last here idle alone => exact inv_last inv here idle alone
  | leave here idle others => exact inv_leave inv here idle others
  | install here => exact inv_install inv here
  | finish here => exact inv_finish inv here

theorem inv_reachable {log : LogArea} {s : State P} (reachable : Reachable log s) : Inv s :=
  Steps.Reachable.invariant reachable inv_init fun _ _ _ _ inv _ taken => inv_moves inv (moves_of_step taken)

/-- The sector is in the transaction of that number: a committed one, or the one that
    is being built. -/
def InTransaction (s : State P) (txn sector : Nat) : Prop :=
  (∃ t, s.committed[txn]? = some t ∧ sector ∈ t) ∨ (txn = s.committed.length ∧ sector ∈ s.lh)

/-- Operations have numbers of their own, one that is under way has logged only to the
    transaction being built, and what was logged is in its transaction. -/
structure Hist (s : State P) : Prop where
  fresh : ∀ p, (s.pc p).isInOp = true → s.op p < s.ops
  old : ∀ e ∈ s.events, e.op < s.ops
  apart : ∀ p q, (s.pc p).isInOp = true → (s.pc q).isInOp = true → s.op p = s.op q → p = q
  current : ∀ p, (s.pc p).isInOp = true → ∀ e ∈ s.events, e.op = s.op p → e.txn = s.committed.length
  whole : ∀ e ∈ s.events, ∀ e' ∈ s.events, e.op = e'.op → e.txn = e'.txn
  kept : ∀ e ∈ s.events, InTransaction s e.txn e.sector

theorem hist_init : Hist (State.init P) := by
  refine ⟨?_,?_,?_,?_,?_,?_⟩ <;> simp [State.init,Pc.isInOp]

theorem Hist.shrink {s : State P} (hist : Hist s) {outstanding : Int} {committing : Bool} {pc : P → Pc}
    (fewer : ∀ q, (pc q).isInOp = true → (s.pc q).isInOp = true) :
    Hist { s with outstanding := outstanding, committing := committing, pc := pc } where
  fresh q here := hist.fresh q (fewer q here)
  old := hist.old
  apart q r first second := hist.apart q r (fewer q first) (fewer r second)
  current q here := hist.current q (fewer q here)
  whole := hist.whole
  kept := hist.kept

theorem isInOp_update (pc : P → Pc) (p : P) {v : Pc} (fewer : v.isInOp = true → (pc p).isInOp = true) (q : P)
    (here : (update pc p v q).isInOp = true) : (pc q).isInOp = true := by
  by_cases same : q = p
  · subst same
    exact fewer (by simpa using here)
  · simpa [same] using here

theorem hist_admit {s : State P} (hist : Hist s) {p : P} {outstanding : Int} :
    Hist { s with
      outstanding := outstanding
      pc := update s.pc p .inOp
      ops := s.ops + 1
      op := update s.op p s.ops } := by
  have known {q : P} (other : q ≠ p) (here : (update s.pc p .inOp q).isInOp = true) :
      (s.pc q).isInOp = true := by simpa [other] using here
  refine ⟨fun q here => ?_,fun e member => ?_,fun q r first second equal => ?_,fun q here e member equal => ?_,
    hist.whole,hist.kept⟩
  · by_cases same : q = p
    · subst same; simp
    · have := hist.fresh q (known same here)
      simp only [update_of_ne same]
      omega
  · have := hist.old e member
    simp only
    omega
  · by_cases same : q = p
    · by_cases same' : r = p
      · rw [same,same']
      · have := hist.fresh r (known same' second)
        simp only [same,update_self,update_of_ne same'] at equal
        omega
    · by_cases same' : r = p
      · have := hist.fresh q (known same first)
        simp only [same',update_self,update_of_ne same] at equal
        omega
      · simp only [update_of_ne same,update_of_ne same'] at equal
        exact hist.apart q r (known same first) (known same' second) equal
  · by_cases same : q = p
    · -- the number of the new operation is in no event yet
      have := hist.old e member
      simp only [same,update_self] at equal
      omega
    · simp only [update_of_ne same] at equal
      exact hist.current q (known same here) e member equal

theorem hist_append {s : State P} (hist : Hist s) {p : P} {sector : Nat} (here : s.pc p = .logging sector) :
    Hist { s with
      lh := absorb s.lh sector
      pc := update s.pc p .inOp
      events := ⟨s.op p,sector,s.committed.length⟩ :: s.events } := by
  have mine : (s.pc p).isInOp = true := by rw [here]; rfl
  have known := isInOp_update s.pc p (v := .inOp) (fun _ => mine)
  refine ⟨fun q inOp => hist.fresh q (known q inOp),?_,fun q r first second => hist.apart q r (known q first) (known r second),
    ?_,?_,?_⟩
  · intro e member
    rcases List.mem_cons.mp member with rfl | member
    · exact hist.fresh p mine
    · exact hist.old e member
  · intro q inOp e member equal
    rcases List.mem_cons.mp member with rfl | member
    · rfl
    · exact hist.current q (known q inOp) e member equal
  · intro e member e' member' equal
    rcases List.mem_cons.mp member with rfl | member
    · rcases List.mem_cons.mp member' with rfl | member'
      · rfl
      · exact (hist.current p mine e' member' equal.symm).symm
    · rcases List.mem_cons.mp member' with rfl | member'
      · exact hist.current p mine e member equal
      · exact hist.whole e member e' member' equal
  · intro e member
    rcases List.mem_cons.mp member with rfl | member
    · exact .inr ⟨rfl,(mem_absorb _ _ _).mpr (.inr rfl)⟩
    · rcases hist.kept e member with done | ⟨txn,inLog⟩
      · exact .inl done
      · exact .inr ⟨txn,(mem_absorb _ _ _).mpr (.inl inLog)⟩

theorem hist_install {s : State P} (hist : Hist s) (none : ∀ q, (s.pc q).isInOp = false) {p : P} :
    Hist { s with lh := [], pc := update s.pc p .committed, committed := s.committed ++ [s.lh] } := by
  have nobody : ∀ q, (update s.pc p .committed q).isInOp = true → False := by
    intro q inOp
    have := isInOp_update s.pc p (v := .committed) (by simp [Pc.isInOp]) q inOp
    rw [none q] at this
    cases this
  refine ⟨fun q inOp => (nobody q inOp).elim,hist.old,fun q _ inOp => (nobody q inOp).elim,
    fun q inOp => (nobody q inOp).elim,hist.whole,fun e member => ?_⟩
  rcases hist.kept e member with ⟨t,found,inside⟩ | ⟨txn,inLog⟩
  · have bound : e.txn < s.committed.length := (List.getElem?_eq_some_iff.mp found).1
    exact .inl ⟨t,by rw [List.getElem?_append_left bound]; exact found,inside⟩
  · exact .inl ⟨s.lh,by simp [txn],inLog⟩

theorem hist_moves {log : LogArea} {s s' : State P} {a : Action P} (inv : Inv s) (hist : Hist s)
    (moves : Moves log s a s') : Hist s' := by
  cases moves with
  | begin_op here => exact hist.shrink (isInOp_update _ _ (by simp [Pc.isInOp]))
  | wait here full => exact hist.shrink (isInOp_update _ _ (by simp [Pc.isInOp]))
  | enters here idle room => exact hist_admit hist
  | kill here => exact hist.shrink (isInOp_update _ _ (by simp [Pc.isInOp]))
  | log_write here small room => exact hist.shrink (isInOp_update _ _ (fun _ => by rw [here]; rfl))
  | append here => exact hist_append hist here
  | last here idle alone => exact hist.shrink (isInOp_update _ _ (by simp [Pc.isInOp]))
  | leave here idle others =>
    refine hist.shrink (fun q inOp => ?_)
    rw [isInOp_wakeup] at inOp
    exact isInOp_update _ _ (by simp [Pc.isInOp]) q inOp
  | install here =>
    refine hist_install hist (inside_zero ?_)
    have busy := inv.quiet (inv.commits.mpr ⟨_,by rw [here]; rfl⟩)
    have := inv.counted
    omega
  | finish here =>
    refine hist.shrink (fun q inOp => ?_)
    rw [isInOp_wakeup] at inOp
    exact isInOp_update _ _ (by simp [Pc.isInOp]) q inOp

theorem hist_reachable {log : LogArea} {s : State P} (reachable : Reachable log s) : Hist s :=
  Steps.Reachable.invariant reachable hist_init fun _ _ _ before hist _ taken =>
    hist_moves (inv_reachable before) hist (moves_of_step taken)

structure GroupCommit (s : State P) : Prop where
  /-- `log.outstanding` counts the processes between `begin_op` and `end_op`. -/
  counted : s.outstanding = inside s.pc
  quiet : s.committing = true → s.outstanding = 0
  distinct : s.lh.Nodup
  /-- No process is in `log_write`, or anywhere else in an operation, during a commit. -/
  exclusive : ∀ p q, (s.pc q).commits = true → (s.pc p).isInOp = false
  /-- The sectors of one operation are all in one transaction. -/
  whole : ∀ e ∈ s.events, ∀ e' ∈ s.events, e.op = e'.op → e.txn = e'.txn
  kept : ∀ e ∈ s.events, InTransaction s e.txn e.sector
  awake : ∀ p, s.pc p = .asleep → ¬ (s.outstanding = 0 ∧ s.committing = false)

/-- In every run of any number of processes the log's variables agree with where the
    processes stand, a commit runs alone, no operation is split over two commits, no
    sleeper is forgotten, and `end_op` never finds a commit under way. -/
theorem group_commit {log : LogArea} {s : State P} (reachable : Reachable log s) :
    GroupCommit s ∧ ∀ a, step log s a ≠ some (.error "log.committing") := by
  have inv := inv_reachable reachable
  have hist := hist_reachable reachable
  refine ⟨⟨inv.counted,inv.quiet,inv.distinct,?_,hist.whole,hist.kept,?_⟩,?_⟩
  · intro p q commits
    by_contra inOp
    have idle := inv.idle (p := p) (by simpa using inOp)
    rw [inv.commits.mpr ⟨q,commits⟩] at idle
    cases idle
  · rintro p asleep ⟨zero,idle⟩
    rcases inv.waits p asleep with busy | positive
    · rw [idle] at busy
      cases busy
    · omega
  · intro a stopped
    cases panics_of_step stopped with
    | full here full text => simp at text
    | outside here none text => simp at text
    | committing here busy text =>
      rw [inv.idle (by rw [here]; rfl)] at busy
      cases busy

section
local instance twoProcesses : NeZero 2 := ⟨two_ne_zero⟩

/-- A run at whose end one process commits while another waits in `begin_op`. -/
def waiting : List (Action (Fin 2)) :=
  [.begin_op 0,.test 0,.log_write 0 29,.append 0,.end_op 0,.begin_op 1,.test 1]

end

theorem group_commit_waiting : ∃ s, Steps.run (step ⟨994,30⟩) (fun _ _ => True) (State.init (Fin 2)) waiting = some s ∧
    s.pc 0 = .committing ∧ s.pc 1 = .asleep ∧
    GroupCommit s ∧ ∀ a, step ⟨994,30⟩ s a ≠ some (.error "log.committing") := by
  refine ⟨_,rfl,rfl,rfl,group_commit ?_⟩
  exact Steps.reachable_run .start (show Steps.run _ _ (State.init (Fin 2)) waiting = some _ from rfl)

end

end Osce.Log.Protocol
