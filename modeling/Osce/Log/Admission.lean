import Osce.Log.Protocol
import Osce.Log.Recovery

/-!
Whether the test of `begin_op` leaves enough room in the log. An operation may log
`MAXOPBLOCKS` sectors, and `begin_op` reserves that many for each one it admits,
out of `LOGSIZE`. One block of the log area is the header, though, and `log_write`
tests for room before it looks for a sector to absorb.
-/
namespace Osce.Log.Protocol
open Osce.Lib Osce.Layout Osce.Log Function Finset
set_option linter.unusedSectionVars false

variable {P : Type} [DecidableEq P]

def sectorsOf (events : List Event) (op : Nat) : Finset Nat :=
  ((events.filter fun e => e.op = op).map Event.sector).toFinset

/-- No operation logs more than `MAXOPBLOCKS` distinct sectors. -/
def Bounded (s : State P) : Action P → Prop
  | .log_write p sector => (insert sector (sectorsOf s.events (s.op p))).card ≤ MAXOPBLOCKS
  | _ => True

def Admits (s : State P) (p : P) : Prop :=
  s.pc p = .entering ∧ s.committing = false ∧ s.lh.length + (s.outstanding + 1) * MAXOPBLOCKS ≤ LOGSIZE

/-- An operation is admitted only when its reservation and those of the others stay
    below the number of data blocks in the log. -/
def Reserves (log : LogArea) (s : State P) : Action P → Prop
  | .test p => Admits s p → s.lh.length + (s.outstanding + 1) * MAXOPBLOCKS < (log.size : Int) - 1
  | _ => True

instance (s : State P) (a : Action P) : Decidable (Bounded s a) :=
  match a with
  | .log_write p sector => inferInstanceAs (Decidable ((insert sector (sectorsOf s.events (s.op p))).card ≤ MAXOPBLOCKS))
  | .begin_op _ | .test _ | .kill _ | .append _ | .end_op _ | .install _ | .finish _ => isTrue trivial

instance (s : State P) (p : P) : Decidable (Admits s p) := inferInstanceAs (Decidable (_ ∧ _))

instance (log : LogArea) (s : State P) (a : Action P) : Decidable (Reserves log s a) :=
  match a with
  | .test p => inferInstanceAs (Decidable (Admits s p → _ < (log.size : Int) - 1))
  | .begin_op _ | .kill _ | .log_write _ _ | .append _ | .end_op _ | .install _ | .finish _ => isTrue trivial

theorem mem_sectorsOf {events : List Event} {op sector : Nat} :
    sector ∈ sectorsOf events op ↔ ∃ e ∈ events, e.op = op ∧ e.sector = sector := by
  simp [sectorsOf,and_assoc]

theorem sectorsOf_cons (e : Event) (events : List Event) (op : Nat) :
    sectorsOf (e :: events) op =
      if e.op = op then insert e.sector (sectorsOf events op) else sectorsOf events op := by
  by_cases same : e.op = op <;> simp [sectorsOf,same]

theorem sectorsOf_lh {s : State P} (hist : Hist s) {p : P} (here : (s.pc p).isInOp = true) {sector : Nat}
    (member : sector ∈ sectorsOf s.events (s.op p)) : sector ∈ s.lh := by
  obtain ⟨e,inside,same,rfl⟩ := mem_sectorsOf.mp member
  rcases hist.kept e inside with ⟨t,found,_⟩ | ⟨_,inLog⟩
  · have bound := (List.getElem?_eq_some_iff.mp found).1
    rw [hist.current p here e inside same] at bound
    exact absurd bound (Nat.lt_irrefl _)
  · exact inLog

section
variable [Fintype P]

/-- What is left of the reservation of an operation that has logged these sectors. -/
def left (pc : Pc) (sectors : Finset Nat) : Nat := if pc.isInOp then MAXOPBLOCKS - sectors.card else 0

def reserved (s : State P) : Nat := ∑ p, left (s.pc p) (sectorsOf s.events (s.op p))

/-- The log has room for what is left of the reservations, and one block besides. -/
structure Room (log : LogArea) (s : State P) : Prop where
  room : s.lh.length + reserved s + 1 < log.size
  pending : ∀ p sector, s.pc p = .logging sector →
    (insert sector (sectorsOf s.events (s.op p))).card ≤ MAXOPBLOCKS

theorem left_le (pc : Pc) (sectors : Finset Nat) : left pc sectors ≤ MAXOPBLOCKS := by
  unfold left
  split <;> omega

theorem left_in {pc : Pc} (inOp : pc.isInOp = true) (sectors : Finset Nat) :
    left pc sectors = MAXOPBLOCKS - sectors.card := by
  simp [left,inOp]

theorem left_out {pc : Pc} (out : pc.isInOp = false) (sectors : Finset Nat) : left pc sectors = 0 := by
  simp [left,out]

theorem reserved_update (s s' : State P) (p : P)
    (others : ∀ q, q ≠ p → left (s'.pc q) (sectorsOf s'.events (s'.op q)) = left (s.pc q) (sectorsOf s.events (s.op q))) :
    reserved s' + left (s.pc p) (sectorsOf s.events (s.op p)) =
      reserved s + left (s'.pc p) (sectorsOf s'.events (s'.op p)) := by
  unfold reserved
  rw [← add_sum_erase _ _ (mem_univ p),← add_sum_erase (s := univ)
    (fun q => left (s.pc q) (sectorsOf s.events (s.op q))) (mem_univ p)]
  have same := sum_congr rfl fun q (member : q ∈ univ.erase p) => others q (ne_of_mem_erase member)
  rw [same]
  omega

theorem reserved_le {s : State P} : reserved s ≤ inside s.pc * MAXOPBLOCKS := by
  have each : reserved s ≤ ∑ p, if (s.pc p).isInOp then MAXOPBLOCKS else 0 := by
    refine sum_le_sum fun p _ => ?_
    unfold left
    split <;> omega
  rwa [← sum_filter,sum_const,Nat.nsmul_eq_mul] at each

theorem room_init {log : LogArea} (size : log.size = LOGSIZE) : Room log (State.init P) := by
  constructor
  · simp [State.init,reserved,left,Pc.isInOp,size,LOGSIZE,MAXOPBLOCKS]
  · simp [State.init]

/-- A step that logs nothing and lets nobody in: no reservation grows. -/
theorem Room.shrink {log : LogArea} {s : State P} (room : Room log s) (outstanding : Int) (committing : Bool)
    {pc : P → Pc} (fewer : ∀ q, (pc q).isInOp = true → (s.pc q).isInOp = true)
    (pending : ∀ q sector, pc q = .logging sector →
      s.pc q = .logging sector ∨ (insert sector (sectorsOf s.events (s.op q))).card ≤ MAXOPBLOCKS) :
    Room log { s with outstanding := outstanding, committing := committing, pc := pc } := by
  refine ⟨?_,fun q sector here => ?_⟩
  · have smaller : reserved { s with outstanding := outstanding, committing := committing, pc := pc } ≤ reserved s := by
      refine sum_le_sum fun q _ => ?_
      simp only [left]
      by_cases inOp : (pc q).isInOp = true
      · simp [inOp,fewer q inOp]
      · simp [inOp]
    have := room.room
    simp only
    omega
  · rcases pending q sector here with before | small
    · exact room.pending q sector before
    · exact small

theorem room_admit {log : LogArea} {s : State P} (inv : Inv s) (room : Room log s) {p : P}
    (here : s.pc p = .entering)
    (enough : s.lh.length + (s.outstanding + 1) * MAXOPBLOCKS < (log.size : Int) - 1) :
    Room log { s with
      outstanding := s.outstanding + 1
      pc := update s.pc p .inOp
      ops := s.ops + 1
      op := update s.op p s.ops } := by
  refine ⟨?_,fun q sector at_q => ?_⟩
  · have change := reserved_update s { s with
      outstanding := s.outstanding + 1
      pc := update s.pc p .inOp
      ops := s.ops + 1
      op := update s.op p s.ops } p (fun q other => by simp [other])
    have out : left (s.pc p) (sectorsOf s.events (s.op p)) = 0 := left_out (by rw [here]; rfl) _
    have most := left_le (update s.pc p .inOp p) (sectorsOf s.events (update s.op p s.ops p))
    have bound := reserved_le (s := s)
    have counted := inv.counted
    rw [counted] at enough
    simp only [MAXOPBLOCKS] at *
    omega
  · by_cases same : q = p
    · subst same
      simp at at_q
    · simp only [update_of_ne same] at at_q ⊢
      exact room.pending q sector at_q

theorem room_append {log : LogArea} {s : State P} (hist : Hist s) (room : Room log s) {p : P} {sector : Nat}
    (here : s.pc p = .logging sector) :
    Room log { s with
      lh := absorb s.lh sector
      pc := update s.pc p .inOp
      events := ⟨s.op p,sector,s.committed.length⟩ :: s.events } := by
  have mine : (s.pc p).isInOp = true := by rw [here]; rfl
  -- nobody else under way has this operation's number
  have elsewhere {q : P} (other : q ≠ p) (inOp : (s.pc q).isInOp = true) :
      sectorsOf (⟨s.op p,sector,s.committed.length⟩ :: s.events) (s.op q) = sectorsOf s.events (s.op q) := by
    rw [sectorsOf_cons,if_neg]
    intro equal
    exact other (hist.apart q p inOp mine equal.symm)
  refine ⟨?_,fun q t at_q => ?_⟩
  · have change := reserved_update s { s with
      lh := absorb s.lh sector
      pc := update s.pc p .inOp
      events := ⟨s.op p,sector,s.committed.length⟩ :: s.events } p (fun q other => by
        simp only [update_of_ne other,left]
        by_cases inOp : (s.pc q).isInOp = true
        · rw [elsewhere other inOp]
        · simp [inOp])
    have small := room.pending p sector here
    have := room.room
    simp only [update_self,sectorsOf_cons,if_true,length_absorb] at change ⊢
    rw [left_in mine,left_in rfl] at change
    by_cases absorbed : sector ∈ s.lh
    · have grows := card_le_card (subset_insert sector (sectorsOf s.events (s.op p)))
      rw [if_pos absorbed]
      omega
    · have new : sector ∉ sectorsOf s.events (s.op p) := fun member => absorbed (sectorsOf_lh hist mine member)
      rw [card_insert_of_notMem new] at small change
      rw [if_neg absorbed]
      omega
  · by_cases same : q = p
    · subst same
      simp at at_q
    · simp only [update_of_ne same] at at_q ⊢
      rw [elsewhere same (by rw [at_q]; rfl)]
      exact room.pending q t at_q

theorem room_install {log : LogArea} {s : State P} (room : Room log s) {p : P} {committed : List (List Nat)} :
    Room log { s with lh := [], pc := update s.pc p .committed, committed := committed } := by
  have shrunk := room.shrink s.outstanding s.committing
    (isInOp_update s.pc p (v := .committed) (by simp [Pc.isInOp]))
    (fun q sector at_q => .inl (by
      by_cases same : q = p
      · subst same; simp at at_q
      · simpa [same] using at_q))
  refine ⟨?_,shrunk.pending⟩
  have := shrunk.room
  simp only [reserved,List.length_nil] at this ⊢
  omega

theorem room_moves {log : LogArea} {s s' : State P} {a : Action P} (inv : Inv s) (hist : Hist s) (room : Room log s)
    (bounded : Bounded s a) (reserves : Reserves log s a) (moves : Moves log s a s') : Room log s' := by
  -- a process that moves to a point outside `log_write` adds no pending sector
  have nothing {p : P} {v : Pc} (away : ∀ sector, v ≠ .logging sector) (q : P) (sector : Nat)
      (here : update s.pc p v q = .logging sector) :
      s.pc q = .logging sector ∨ (insert sector (sectorsOf s.events (s.op q))).card ≤ MAXOPBLOCKS := by
    by_cases same : q = p
    · subst same
      exact absurd (by simpa using here) (away sector)
    · exact .inl (by simpa [same] using here)
  have woken {pc : P → Pc} {q : P} {sector : Nat} (here : wakeup pc q = .logging sector) : pc q = .logging sector := by
    unfold wakeup at here
    split at here
    · cases here
    · exact here
  cases moves with
  | begin_op here => exact room.shrink _ _ (isInOp_update _ _ (by simp [Pc.isInOp])) (nothing (by simp))
  | wait here full => exact room.shrink _ _ (isInOp_update _ _ (by simp [Pc.isInOp])) (nothing (by simp))
  | enters here idle enough => exact room_admit inv room here (reserves ⟨here,idle,enough⟩)
  | kill here => exact room.shrink _ _ (isInOp_update _ _ (by simp [Pc.isInOp])) (nothing (by simp))
  | @log_write p t here small _ =>
    refine room.shrink _ _ (isInOp_update _ _ fun _ => by rw [here]; rfl) (fun q sector at_q => ?_)
    by_cases same : q = p
    · subst same
      have equal : t = sector := by simpa using at_q
      exact .inr (equal ▸ bounded)
    · exact .inl (by simpa [same] using at_q)
  | append here => exact room_append hist room here
  | last here idle alone => exact room.shrink _ _ (isInOp_update _ _ (by simp [Pc.isInOp])) (nothing (by simp))
  | leave here idle others =>
    refine room.shrink _ _ (fun q inOp => ?_) (fun q sector at_q => nothing (by simp) q sector (woken at_q))
    rw [isInOp_wakeup] at inOp
    exact isInOp_update _ _ (by simp [Pc.isInOp]) q inOp
  | install here => exact room_install room
  | finish here =>
    refine room.shrink _ _ (fun q inOp => ?_) (fun q sector at_q => nothing (by simp) q sector (woken at_q))
    rw [isInOp_wakeup] at inOp
    exact isInOp_update _ _ (by simp [Pc.isInOp]) q inOp

theorem room_reachable {log : LogArea} (size : log.size = LOGSIZE) {s : State P}
    (reached : Steps.Reachable (step log) (fun s a => Bounded s a ∧ Reserves log s a) (State.init P) s) : Room log s :=
  reached.invariant (room_init size) fun _ _ _ before room meets taken =>
    have reachable : Reachable log _ := before.weaken fun _ _ _ => trivial
    room_moves (inv_reachable reachable) (hist_reachable reachable) room meets.1 meets.2 (moves_of_step taken)

def InLog (log : LogArea) : LogOp → Prop
  | .store sector _ => log.Inside sector
  | .bwrite sector => log.Inside sector
  | _ => True

theorem write_log_from_always {log : LogArea} (tail : Nat) (sectors : List Nat)
    (fits : tail + sectors.length < log.size) : Prog.Always (InLog log) (write_log_from log tail sectors) := by
  induction sectors generalizing tail with
  | nil => trivial
  | cons sector rest ih =>
    have block : log.Inside (log.start + tail + 1) := by
      simp only [List.length_cons] at fits
      constructor <;> omega
    have later := ih (tail + 1) (by simp only [List.length_cons] at fits; omega)
    exact ⟨trivial,fun _ => ⟨trivial,fun _ => ⟨block,fun _ => ⟨block,fun _ => ⟨trivial,fun _ => ⟨trivial,fun _ => later⟩⟩⟩⟩⟩⟩

def Untouched (log : LogArea) (m m' : Machine) : Prop :=
  ∀ sector, ¬ log.Inside sector → m'.disk sector = m.disk sector ∧ m'.view sector = m.view sector

theorem untouched_handle {log : LogArea} (op : LogOp) (ok : InLog log op) (m : Machine) (a : op.Ans) (m' : Machine)
    (answered : Machine.handle op m = .ok (a,m')) : Untouched log m m' := by
  intro sector outside
  cases op with
  | bread s =>
    simp only [Machine.handle] at answered
    split at answered
    · cases answered
    · cases answered
      exact ⟨rfl,view_load s sector⟩
  | store s data =>
    cases answered
    have other : sector ≠ s := by rintro rfl; exact outside ok
    exact ⟨rfl,by rw [view_store,if_neg other]⟩
  | bwrite s =>
    cases answered
    have other : sector ≠ s := by rintro rfl; exact outside ok
    simp [Machine.view,other]
  | brelse s =>
    cases answered
    exact ⟨rfl,rfl⟩
  | lh =>
    cases answered
    exact ⟨rfl,rfl⟩
  | setLh sectors =>
    cases answered
    exact ⟨rfl,rfl⟩

/-- `write_log` stays inside the log area, for a transaction that leaves room for the
    header. -/
theorem write_log_untouched {log : LogArea} {m m' : Machine} {p : LogProg Unit} (fits : m.lh.length < log.size)
    (run : Prog.Reaches Machine.handle (write_log log) m p m') : Untouched log m m' := by
  have stays (m : Machine) : Untouched log m m := fun _ _ => ⟨rfl,rfl⟩
  cases run with
  | refl => exact stays m
  | step first rest =>
    cases first
    refine Prog.always_reaches stays ?_ untouched_handle (write_log_from_always 0 m.lh (by omega)) rest
    intro m₁ m₂ m₃ one two sector outside
    exact ⟨(two sector outside).1.trans (one sector outside).1,(two sector outside).2.trans (one sector outside).2⟩

/-- In a log of the size that `mkfs` sets, with no operation that logs more than
    `MAXOPBLOCKS` sectors: as long as the reservations stay below `log.size - 1`,
    `log_write` finds room, `log.lh.n` leaves room for the header, and `write_log`
    stays inside the log area. -/
theorem admission_sufficient {log : LogArea} (size : log.size = LOGSIZE) {s : State P}
    (reached : Steps.Reachable (step log) (fun s a => Bounded s a ∧ Reserves log s a) (State.init P) s) :
    (∀ a, step log s a ≠ some (.error "too big a transaction")) ∧
    s.lh.length + 1 ≤ log.size ∧
    ∀ m m' : Machine, ∀ p, m.lh = s.lh → Prog.Reaches Machine.handle (write_log log) m p m' → Untouched log m m' := by
  have room := (room_reachable size reached).room
  refine ⟨fun a stopped => ?_,by omega,fun m m' p same run => ?_⟩
  · cases panics_of_step stopped with
    | full here full text => rcases full with array | area <;> omega
    | outside here none text => simp at text
    | committing here busy text => simp at text
  · exact write_log_untouched (by rw [same]; omega) run

end

def logs (p : Fin 3) (sectors : List Nat) : List (Action (Fin 3)) :=
  sectors.flatMap fun sector => [.log_write p sector,.append p]

def threeOps : List (Action (Fin 3)) :=
  [.begin_op 0,.test 0,.begin_op 1,.test 1,.begin_op 2,.test 2] ++
    logs 0 (List.range' 100 10) ++ logs 1 (List.range' 110 10) ++ logs 2 (List.range' 120 9)

/-- The third operation's tenth sector is one too many for the log, though each of the
    three has logged no more than it may. -/
theorem admission_insufficient : ∃ s : State (Fin 3),
    Steps.Reachable (step ⟨994,LOGSIZE⟩) Bounded (State.init (Fin 3)) s ∧
    ∃ a, Bounded s a ∧ step ⟨994,LOGSIZE⟩ s a = some (.error "too big a transaction") := by
  have stops : (Steps.run (step ⟨994,LOGSIZE⟩) Bounded (State.init (Fin 3)) threeOps).any (fun s =>
      decide (Bounded s (.log_write 2 129)) &&
        Steps.stops "too big a transaction" (step ⟨994,LOGSIZE⟩ s (.log_write 2 129))) = true := by
    decide +kernel
  obtain ⟨s,taken,last⟩ := (Option.any_eq_true _ _).mp stops
  rw [Bool.and_eq_true,decide_eq_true_iff] at last
  exact ⟨s,Steps.reachable_run .start taken,.log_write 2 129,last.1,Steps.eq_of_stops last.2⟩

def twoOps : List (Action (Fin 3)) :=
  [.begin_op 0,.test 0,.begin_op 1,.test 1] ++ logs 0 [28,29] ++ logs 1 [28,30]

theorem admission_sufficient_two : ∃ s, Steps.run (step ⟨994,30⟩) (fun s a => Bounded s a ∧ Reserves ⟨994,30⟩ s a)
      (State.init (Fin 3)) twoOps = some s ∧
    (∀ a, step ⟨994,30⟩ s a ≠ some (.error "too big a transaction")) ∧
    s.lh.length + 1 ≤ 30 ∧
    ∀ m m' : Machine, ∀ p, m.lh = s.lh →
      Prog.Reaches Machine.handle (write_log ⟨994,30⟩) m p m' → Untouched ⟨994,30⟩ m m' := by
  have taken : (Steps.run (step ⟨994,30⟩) (fun s a => Bounded s a ∧ Reserves ⟨994,30⟩ s a)
      (State.init (Fin 3)) twoOps).isSome = true := by decide +kernel
  obtain ⟨s,found⟩ := Option.isSome_iff_exists.mp taken
  exact ⟨s,found,admission_sufficient rfl (Steps.reachable_run .start found)⟩

end Osce.Log.Protocol
