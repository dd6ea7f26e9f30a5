import Osce.Proc.Exclusive

/-!
`sleep` and `wakeup`. A process in `sleep` has `ptable.lock` from before it gives up the lock of
its caller until it is `SLEEPING` on the channel and off its CPU, so that every later `wakeup1`
on the channel finds it.
-/
namespace Osce.Procs
open Osce.Lib
open Function (update update_of_ne update_self)
set_option linter.unusedSectionVars false

variable {C K A : Type} [DecidableEq C] [DecidableEq K] [DecidableEq A]

def Action.cpu : Action C K A → Option C
  | .call c _ | .turn c _ | .yield c => some c
  | _ => none

/-- A step calls `wakeup1` on this channel: in `wakeup`, or in `exit` for the parent, and for
    init if a child has exited before. -/
def State.Wakes (s : State C K A) (chan : Chan A) : Action C K A → Prop
  | .interrupt _ a => chan = .addr a
  | .call _ (.wakeup a) => chan = .addr a
  | .turn c _ => ∃ q, (s.cpus c).stack = some q ∧ s.pos q = .exiting ∧
      (some chan = (s.procs q).parent.map .proc ∨
        chan = .proc initproc ∧ ∃ z, (s.procs z).parent = some q ∧ (s.procs z).state = .ZOMBIE)
  | _ => False

def ProcState.Live (st : ProcState) : Prop := st = .SLEEPING ∨ st = .RUNNABLE ∨ st = .RUNNING

section
variable {s s' : State C K A} {a : Action C K A} {c : C} {p q : Slot} {chan : Chan A} {after : After K}

/-- What a step of others leaves of a process that has started. -/
structure Stands (s s' : State C K A) (p : Slot) : Prop where
  pos : s'.pos p = s.pos p
  born : s'.born p = s.born p
  chan : (s'.procs p).chan = (s.procs p).chan
  pid : (s'.procs p).pid = (s.procs p).pid
  status : (s'.procs p).status = (s.procs p).status
  state : s'.state p = s.state p ∨ s'.state p = .RUNNABLE ∧ s.state p = .SLEEPING ∨ s'.state p = .RUNNING ∧ s.state p = .RUNNABLE

theorem Stands.of_other {pr : Proc A} (other : p ≠ q) (procs : s'.procs = update s.procs q pr)
    (pos : s'.pos p = s.pos p) (born : s'.born p = s.born p) : Stands s s' p := by
  have same : s'.procs p = s.procs p := by rw [procs,update_of_ne other]
  refine ⟨pos,born,by rw [same],by rw [same],by rw [same],.inl ?_⟩
  rw [State.state,same]
  rfl

theorem Stands.same (procs : s'.procs = s.procs) (pos : s'.pos p = s.pos p) (born : s'.born p = s.born p) : Stands s s' p := by
  refine ⟨pos,born,by rw [procs],by rw [procs],by rw [procs],.inl ?_⟩
  rw [State.state,procs]
  rfl

/-- A process that has started is left alone by the steps of others. -/
theorem Moves.stands (e : Exclusive s.state s.table s.cpus s.pos) (m : Moves s a s') (live : (s.state p).Live)
    (other : ∀ c, a.cpu = some c → (s.cpus c).stack ≠ some p) : Stands s s' p := by
  have apart {c : C} {q : Slot} (acts : a.cpu = some c) (on : (s.cpus c).stack = some q) : p ≠ q := by
    rintro rfl
    exact other c acts on
  have goes {c : C} {q : Slot} {pos : Pos K A} (acts : a.cpu = some c) (on : (s.cpus c).stack = some q) :
      update s.pos q pos p = s.pos p := update_of_ne (apart acts on) _ _
  have distinct {q : Slot} (dead : ¬ (s.state q).Live) : p ≠ q := by
    rintro rfl
    exact dead live
  cases m with
  | takes => exact .same rfl rfl rfl
  | skips => exact .same rfl rfl rfl
  | rests => exact .same rfl rfl rfl
  | chooses => exact .same rfl rfl rfl
  | @marks c q on here =>
    by_cases same : p = q
    · subst same
      have fits := e.on c p (by rw [(e.cpu c).proc,here]; rfl)
      simp only [Cpu.Suits,on,here] at fits
      refine ⟨rfl,rfl,?_,?_,?_,.inr (.inr ⟨?_,fits.1⟩)⟩ <;> simp [State.setCpu,State.setProc,State.state]
    · exact .of_other same rfl rfl rfl
  | switches => exact .same rfl rfl rfl
  | resumes => exact .same rfl rfl rfl
  | @wakes _ chan free calls =>
    refine ⟨rfl,rfl,by simp only [wakeup1_eq],by simp only [wakeup1_eq],by simp only [wakeup1_eq],?_⟩
    simp only [State.state,wakeup1_eq]
    split
    · rename_i asleep
      exact .inr (.inl ⟨rfl,asleep.1⟩)
    · exact .inl rfl
  | kills on here free =>
    refine ⟨rfl,rfl,by simp only [kill_eq],by simp only [kill_eq],by simp only [kill_eq],?_⟩
    simp only [State.state,kill_eq]
    split
    · rename_i asleep
      exact .inr (.inl ⟨rfl,asleep.2⟩)
    · exact .inl rfl
  | pstats => exact .same rfl rfl rfl
  | full => exact .same rfl rfl rfl
  | forks on here free found =>
    have away := distinct (by rw [State.state,found]; simp [ProcState.Live])
    exact .of_other away rfl (goes rfl on) (update_of_ne away _ _)
  | @starts c q np ok on here free =>
    have isEmbryo := (e.embryo q np (by rw [here]; rfl)).1
    exact .of_other (distinct (by simp [isEmbryo,ProcState.Live])) rfl (goes rfl on) rfl
  | acquires => exact .same rfl rfl rfl
  | releases => exact .same rfl rfl rfl
  | relocks on here free => exact .same rfl (goes rfl on) rfl
  | @enters _ c q pos n on free how =>
    have acts : a.cpu = some c := by
      rcases how with ⟨-,⟨_,_,rfl,-⟩ | ⟨_,rfl,-⟩⟩ | ⟨-,-,_,rfl⟩ | ⟨_,-,-,rfl⟩ <;> rfl
    exact .same rfl (goes acts on) rfl
  | leaves on here => exact .same rfl (goes rfl on) rfl
  | wakened on here => exact .of_other (apart rfl on) rfl (goes rfl on) rfl
  | yields on here => exact .of_other (apart rfl on) rfl (goes rfl on) rfl
  | gives on here held => exact .same rfl (goes rfl on) rfl
  | sleeps on here => exact .of_other (apart rfl on) rfl (goes rfl on) rfl
  | swtch on here => exact .same rfl (goes rfl on) rfl
  | rewaits on here => exact .of_other (apart rfl on) rfl (goes rfl on) rfl
  | @dies c q ok on here =>
    have left := exit_other s.procs (apart rfl on)
    refine ⟨goes rfl on,rfl,by simp only [State.goto,left],by simp only [State.goto,left],by simp only [State.goto,left],?_⟩
    simp only [State.state,State.goto,left]
    split
    · rename_i asleep
      exact .inr (.inl ⟨rfl,asleep.1⟩)
    · exact .inl rfl
  | reaps on here child dead => exact .of_other (distinct (by simp [State.state,dead,ProcState.Live])) rfl (goes rfl on) rfl
  | waits on here none childless => exact .same rfl (goes rfl on) rfl
  | dozes on here none => exact .same rfl (goes rfl on) rfl
  | exits on here init => exact .of_other (apart rfl on) rfl (goes rfl on) rfl
  | changes on here => exact .of_other (apart rfl on) rfl rfl rfl
  | @kstack c q np ok on here =>
    have isEmbryo := (e.embryo q np (by rw [here]; rfl)).1
    have away : p ≠ np := distinct (by simp [isEmbryo,ProcState.Live])
    refine .same rfl ?_ rfl
    simp only [State.goto,update_of_ne (apart rfl on),update_of_ne away]
  | @copies c q np ok image on here =>
    have isEmbryo := (e.embryo q np (by rw [here]; rfl)).1
    exact .of_other (distinct (by simp [isEmbryo,ProcState.Live])) rfl (goes rfl on) rfl
  | @fails c q np ok on here =>
    have isEmbryo := (e.embryo q np (by rcases here with here | here <;> rw [here] <;> rfl)).1
    exact .of_other (distinct (by simp [isEmbryo,ProcState.Live])) rfl (goes rfl on) rfl

/-- A process inside one of the functions acts by its next step there, unless the timer makes it yield. -/
theorem turn_or_yield (taken : step s a = some (.ok s')) (acts : a.cpu = some c) (on : (s.cpus c).stack = some p)
    (inside : s.pos p ≠ .outside) : (∃ ok, s.turn c p ok = some (.ok s')) ∨
      ∃ place n, s.pos p = .unlocked place ∧ s' = { s.goto p (.yield place) with table := some c, ncli := n } := by
  cases a with
  | scheduler d => cases acts
  | interrupt d chan => cases acts
  | call d call =>
    cases acts
    simp only [step,on] at taken
    cases taken
  | yield d =>
    cases acts
    simp only [step,on] at taken
    split at taken
    · split at taken
      · obtain ⟨_,locked,rfl⟩ := andThen_ok taken
        obtain ⟨-,n,rfl⟩ := lock_ok locked
        exact .inr ⟨_,n,‹_›,rfl⟩
      · cases taken
    · cases taken
  | turn d ok =>
    cases acts
    simp only [step,on] at taken
    exact .inl ⟨ok,taken⟩

theorem turn_of_acts (taken : step s a = some (.ok s')) (acts : a.cpu = some c) (on : (s.cpus c).stack = some p)
    (locked : (s.pos p).Locked) : ∃ ok, s.turn c p ok = some (.ok s') := by
  have inside : s.pos p ≠ .outside := fun here => by rwa [here] at locked
  refine (turn_or_yield taken acts on inside).resolve_right ?_
  rintro ⟨place,-,here,-⟩
  rwa [here] at locked

theorem acts_or (s : State C K A) (a : Action C K A) (p : Slot) :
    (∃ c, a.cpu = some c ∧ (s.cpus c).stack = some p) ∨ ∀ c, a.cpu = some c → (s.cpus c).stack ≠ some p := by
  by_cases acts : ∃ c, a.cpu = some c ∧ (s.cpus c).stack = some p
  · exact .inl acts
  · exact .inr fun c isC on => acts ⟨c,isC,on⟩

/-- Where a process is from the time it gives up the lock in `sleep` until it has cleared its
    channel. -/
def Pos.InSleep (pos : Pos K A) (chan : Chan A) (after : After K) : Prop :=
  pos = .sleep chan after ∨ pos = .sched after ∨ pos = .back after

/-- The process is on its way to sleep, or sleeps on the channel. -/
def State.Sleeps (s : State C K A) (p : Slot) (chan : Chan A) (after : After K) : Prop :=
  s.pos p = .sleep chan after ∨
    (s.pos p = .sched after ∨ s.pos p = .back after) ∧ s.state p = .SLEEPING ∧ (s.procs p).chan = some chan

def After.next : After K → Pos K A
  | .sleep lk => .relock lk
  | .wait status => .wait status
  | .yield place => .unlocked place
  | .exit => .outside

theorem Exclusive.on_stack (e : Exclusive s.state s.table s.cpus s.pos) (started : s.pos p ≠ .forkret)
    (awake : ∀ after, s.pos p ≠ .back after) : ∃ c, (s.cpus c).stack = some p := by
  have stays : ¬ (s.pos p).Resumes := by
    intro resumes
    generalize s.pos p = pos at *
    cases pos with
    | forkret => exact started rfl
    | back after => exact awake after rfl
    | _ => exact resumes
  have isOn : ∃ c, (s.cpus c).proc = some p := by
    by_contra away
    have rests := e.off p (not_exists.mp away)
    generalize s.state p = st at rests
    cases st with
    | UNUSED => exact rests.elim started (awake .exit)
    | EMBRYO => exact rests.elim started (awake .exit)
    | SLEEPING =>
      rcases rests with ⟨lk,back⟩ | ⟨status,back⟩
      · exact awake _ back
      · exact awake _ back
    | RUNNABLE => exact stays rests
    | RUNNING => exact rests
    | ZOMBIE => exact awake .exit rests
  obtain ⟨c,there⟩ := isOn
  refine ⟨c,?_⟩
  cases on : (s.cpus c).stack with
  | some q => exact (e.proc_of_stack on).symm.trans there
  | none =>
    have fits := e.on c p there
    simp only [Cpu.Suits,on] at fits
    split at fits
    · contradiction
    · exact absurd fits.2 stays
    · exact absurd fits.2 stays
    · obtain ⟨after,back,-⟩ := fits
      exact absurd back (awake after)
    · exact fits.elim

theorem Exclusive.live_back (e : Exclusive s.state s.table s.cpus s.pos) (here : s.pos p = .back after)
    (alive : after ≠ .exit) : (s.state p).Live := by
  have not_exit : (Pos.back after : Pos K A) ≠ .back .exit := fun h => alive (Pos.back.inj h)
  by_cases isOn : ∃ c, (s.cpus c).proc = some p
  · obtain ⟨c,there⟩ := isOn
    have fits := e.on c p there
    unfold Cpu.Suits at fits
    split at fits
    · rw [here] at fits
      exact .inr (.inr fits.1)
    · exact .inr (.inl fits.1)
    · exact .inr (.inr fits.1)
    · obtain ⟨last,back,st⟩ := fits
      cases here.symm.trans back
      rw [st]
      cases after with
      | yield place => exact .inr (.inl rfl)
      | sleep lk => exact .inl rfl
      | wait status => exact .inl rfl
      | exit => exact absurd rfl alive
    · exact fits.elim
  · have rests := e.off p (not_exists.mp isOn)
    rw [here] at rests
    generalize s.state p = st at rests
    cases st with
    | UNUSED => exact rests.elim nofun (fun h => absurd h not_exit)
    | EMBRYO => exact rests.elim nofun (fun h => absurd h not_exit)
    | SLEEPING => exact .inl rfl
    | RUNNABLE => exact .inr (.inl rfl)
    | RUNNING => exact .inr (.inr rfl)
    | ZOMBIE => exact absurd rests not_exit

theorem Exclusive.holds (e : Exclusive s.state s.table s.cpus s.pos) (started : s.pos p ≠ .forkret)
    (awake : ∀ after, s.pos p ≠ .back after) (locked : (s.pos p).Locked) :
    ∃ c, (s.cpus c).stack = some p ∧ s.table = some c := by
  obtain ⟨c,on⟩ := e.on_stack started awake
  exact ⟨c,on,(e.guards c).mp ((inside_of_stack on).mpr locked)⟩

theorem Exclusive.falls (e : Exclusive s.state s.table s.cpus s.pos) (here : s.pos p = .sleep chan after) :
    ∃ c, (s.cpus c).stack = some p ∧ s.table = some c ∧ after.state = .SLEEPING ∧ (s.state p).Live := by
  obtain ⟨c,on,held⟩ := e.holds (p := p) (by rw [here]; exact nofun) (by rw [here]; exact nofun) (by rw [here]; exact trivial)
  have fits := e.of_stack on
  rw [here] at fits
  exact ⟨c,on,held,fits.2,.inr (.inr fits.1)⟩

theorem turn_sched {ok : Bool} (here : s.pos p = .sched after) (turn : s.turn c p ok = some (.ok s')) :
    s' = (s.goto p (.back after)).setCpu c { s.cpus c with stack := none } := by
  simp only [State.turn,here] at turn
  split at turn
  · cases turn
  · split at turn
    · cases turn
    · split at turn
      · cases turn
      · split at turn
        · cases turn
        · cases turn
          rfl

/-- Until it is woken up, a process in `sleep` stays on its way, and then asleep on the channel. -/
theorem State.Sleeps.step (e : Exclusive s.state s.table s.cpus s.pos) (sleeps : s.Sleeps p chan after)
    (taken : Procs.step s a = some (.ok s')) : s'.state p = .RUNNABLE ∨ s'.Sleeps p chan after := by
  rcases acts_or s a p with ⟨c,acts,on⟩ | other
  · rcases sleeps with here | ⟨here | here,asleep,set⟩
    · obtain ⟨ok,turn⟩ := turn_of_acts taken acts on (by rw [here]; exact trivial)
      simp only [State.turn,here] at turn
      cases turn
      refine .inr (.inr ⟨.inl ?_,?_,?_⟩) <;> simp [State.goto,State.setProc,State.state]
    · obtain ⟨ok,turn⟩ := turn_of_acts taken acts on (by rw [here]; exact trivial)
      rw [turn_sched here turn]
      exact .inr (.inr ⟨.inr (update_self _ _ _),asleep,set⟩)
    · have runs := (e.of_stack on).1
      rw [here,asleep] at runs
      cases runs
  · rcases sleeps with here | ⟨here,asleep,set⟩
    · obtain ⟨d,-,-,-,live⟩ := e.falls here
      have stands := (moves_of_step taken).stands e live other
      exact .inr (.inl (stands.pos.trans here))
    · have stands := (moves_of_step taken).stands e (.inl asleep) other
      rcases stands.state with same | ⟨woken,-⟩ | ⟨-,ready⟩
      · refine .inr (.inr ⟨?_,same.trans asleep,stands.chan.trans set⟩)
        rwa [stands.pos]
      · exact .inl woken
      · rw [asleep] at ready
        cases ready

/-- A `wakeup1` on the channel of a process in `sleep` is made when it is asleep. -/
theorem State.Sleeps.asleep (e : Exclusive s.state s.table s.cpus s.pos) (sleeps : s.Sleeps p chan after)
    (other : ∀ c, s.table = some c → (s.cpus c).stack ≠ some p) : s.state p = .SLEEPING ∧ (s.procs p).chan = some chan := by
  rcases sleeps with here | ⟨-,asleep⟩
  · obtain ⟨c,on,held,-⟩ := e.falls here
    exact absurd on (other c held)
  · exact asleep

theorem State.Sleeps.woken (e : Exclusive s.state s.table s.cpus s.pos) (sleeps : s.Sleeps p chan after)
    (wakes : s.Wakes chan a) (taken : Procs.step s a = some (.ok s')) : s'.state p = .RUNNABLE := by
  -- outside `exit` the lock is free, so the process is asleep
  have plain (free : s.table = none) : (wakeup1 s.procs (some chan) p).state = .RUNNABLE := by
    have asleep := sleeps.asleep e (fun c held => by rw [free] at held; cases held)
    rw [wakeup1_eq]
    exact if_pos asleep
  cases a with
  | scheduler c => exact wakes.elim
  | interrupt c x =>
    cases wakes
    simp only [Procs.step] at taken
    obtain ⟨free,rfl⟩ := critical_ok taken
    exact plain free
  | call c call =>
    cases call with
    | wakeup x =>
      cases wakes
      simp only [Procs.step] at taken
      split at taken
      · cases taken
      · split at taken
        · simp only [State.call] at taken
          obtain ⟨free,rfl⟩ := critical_ok taken
          exact plain free
        · cases taken
    | _ => exact wakes.elim
  | yield c => exact wakes.elim
  | turn c ok =>
    obtain ⟨q,on,here,which⟩ := wakes
    have apart : p ≠ q := by
      rintro rfl
      rcases sleeps with h | ⟨h | h,-⟩ <;> rw [here] at h <;> cases h
    have held : s.table = some c := (e.guards c).mp ((Exclusive.inside_of_stack on).mpr (by rw [here]; exact trivial))
    obtain ⟨asleep,set⟩ := sleeps.asleep e fun d also there => by
      cases held.symm.trans also
      exact apart (Option.some.inj (there.symm.trans on))
    simp only [Procs.step,on,State.turn,here] at taken
    cases taken
    simp only [State.state,State.goto,exit_other _ apart,set]
    exact if_pos ⟨asleep,which.imp_right fun h => ⟨by rw [h.1],h.2⟩⟩

theorem Pos.InSleep.step (e : Exclusive s.state s.table s.cpus s.pos) (inside : (s.pos p).InSleep chan after)
    (falls : after.state = .SLEEPING) (taken : Procs.step s a = some (.ok s')) :
    (s'.pos p).InSleep chan after ∨ s'.pos p = after.next ∧ (s'.procs p).chan = none := by
  have alive : after ≠ .exit := by
    rintro rfl
    cases falls
  rcases acts_or s a p with ⟨c,acts,on⟩ | other
  · obtain ⟨ok,turn⟩ := turn_of_acts taken acts on (by rcases inside with h | h | h <;> rw [h] <;> exact trivial)
    rcases inside with here | here | here
    · simp only [State.turn,here] at turn
      cases turn
      exact .inl (.inr (.inl (update_self _ _ _)))
    · rw [turn_sched here turn]
      exact .inl (.inr (.inr (update_self _ _ _)))
    · right
      cases after with
      | yield place => cases falls
      | exit => cases falls
      | sleep lk =>
        simp only [State.turn,here] at turn
        obtain ⟨_,unlocked,rfl⟩ := andThen_ok turn
        obtain ⟨n,rfl⟩ := unlock_ok unlocked
        simp [State.goto,State.setProc,After.next]
      | wait status =>
        simp only [State.turn,here] at turn
        cases turn
        simp [State.goto,State.setProc,After.next]
  · left
    have live : (s.state p).Live := by
      rcases inside with here | here | here
      · obtain ⟨_,-,-,-,live⟩ := e.falls here
        exact live
      · obtain ⟨c,on⟩ := e.on_stack (p := p) (by simp [here]) (by simp [here])
        have st := (e.of_stack on).1
        rw [here] at st
        exact .inl (st.trans falls)
      · exact e.live_back here alive
    rwa [((moves_of_step taken).stands e live other).pos]

theorem Exclusive.live_place {place : Place K} (e : Exclusive s.state s.table s.cpus s.pos) (here : (s.pos p).place = some place) :
    (s.state p).Live := by
  by_cases isBack : ∃ after, s.pos p = .back after
  · obtain ⟨after,back⟩ := isBack
    rw [back] at here
    exact e.live_back back (by rintro rfl; cases here)
  obtain ⟨c,on⟩ := e.on_stack (p := p) (fun fresh => by rw [fresh] at here; cases here) (not_exists.mp isBack)
  rw [(e.of_stack on).1]
  generalize s.pos p = pos at here
  cases pos with
  | sched after =>
    cases after with
    | yield place => exact .inr (.inl rfl)
    | _ => cases here
  | _ => exact .inr (.inr rfl)

/-- A process that the timer takes away from a place comes back there. -/
theorem place_step {place : Place K} (e : Exclusive s.state s.table s.cpus s.pos) (here : (s.pos p).place = some place)
    (inside : place ≠ .outside) (taken : Procs.step s a = some (.ok s')) :
    (s.pos p = .unlocked place ∧ ∃ c ok, (s.cpus c).stack = some p ∧ s.turn c p ok = some (.ok s')) ∨
    (s'.pos p).place = some place ∧ s'.born p = s.born p ∧ (s'.procs p).chan = (s.procs p).chan ∧
      (s'.procs p).pid = (s.procs p).pid ∧ (s'.procs p).status = (s.procs p).status := by
  rcases acts_or s a p with ⟨c,acts,on⟩ | other
  · have unsaid : s.pos p ≠ .outside := fun out => by
      rw [out] at here
      exact inside (Option.some.inj here).symm
    rcases turn_or_yield taken acts on unsaid with ⟨ok,turn⟩ | ⟨place',n,there,rfl⟩
    · generalize pos : s.pos p = now at here
      cases now with
      | unlocked _ =>
        cases here
        exact .inl ⟨rfl,c,ok,on,turn⟩
      | yield _ =>
        cases here
        simp only [State.turn,pos] at turn
        cases turn
        simp [State.goto,State.setProc,Pos.place]
      | sched after =>
        cases after with
        | yield _ =>
          cases here
          rw [turn_sched pos turn]
          simp [State.goto,State.setCpu,Pos.place]
        | _ => cases here
      | back after =>
        cases after with
        | yield _ =>
          cases here
          simp only [State.turn,pos] at turn
          obtain ⟨_,unlocked,rfl⟩ := andThen_ok turn
          obtain ⟨n,rfl⟩ := unlock_ok unlocked
          simp [State.goto,Pos.place]
        | _ => cases here
      | _ => cases here
    · rw [there] at here
      cases here
      simp [State.goto,Pos.place]
  · have stands := (moves_of_step taken).stands e (e.live_place here) other
    exact .inr ⟨by rw [stands.pos,here],stands.born,stands.chan,stands.pid,stands.status⟩

/-- Behind `sleep` the process waits for the lock of its caller, and then has it. -/
def State.Relocks (s : State C K A) (p : Slot) (lk : K) : Prop :=
  ((s.pos p).place = some (.relock lk) ∨ s.pos p = .outside ∧ s.locks lk = some p) ∧ (s.procs p).chan = none

theorem State.Relocks.step {lk : K} (e : Exclusive s.state s.table s.cpus s.pos) (here : (s.pos p).place = some (.relock lk))
    (clear : (s.procs p).chan = none) (taken : Procs.step s a = some (.ok s')) : s'.Relocks p lk := by
  rcases place_step e here (by simp) taken with ⟨here,c,ok,on,turn⟩ | ⟨still,-,chan,-⟩
  · simp only [State.turn,here] at turn
    obtain ⟨_,acquired,rfl⟩ := andThen_ok turn
    obtain ⟨free,n,rfl⟩ := acquire_ok acquired
    exact ⟨.inr ⟨update_self _ _ _,update_self _ _ _⟩,clear⟩
  · exact ⟨.inl still,chan.trans clear⟩

end

/-- A process gives up the lock of its caller in `sleep` only if it has it; every `wakeup1` on
    its channel from then on makes it `RUNNABLE`, unless it is so already; it comes back with its channel
    cleared and the lock taken again, and so it does for `ptable.lock` in `wait`. -/
theorem sleep_loses_no_wakeup {image : Slot → Image} {s : State C K A} (reachable : Reachable image s) (p : Slot) :
    (∀ chan lk c ok s', s.pos p = .sleepLocked chan lk → (s.cpus c).stack = some p → step s (.turn c ok) = some (.ok s') →
      s.locks lk = some p ∧ s'.locks lk = none ∧ s'.pos p = .sleep chan (.sleep lk)) ∧
    (∀ chan after s₁ a s₂, s.pos p = .sleep chan after →
      Steps.Reachable step (fun t _ => (t.procs p).state ≠ .RUNNABLE) s s₁ → (s₁.procs p).state ≠ .RUNNABLE →
      s₁.Wakes chan a → step s₁ a = some (.ok s₂) → (s₂.procs p).state = .RUNNABLE) ∧
    (∀ chan lk s₁, s.pos p = .sleep chan (.sleep lk) → Steps.Reachable step (fun t _ => t.pos p ≠ .outside) s s₁ →
      s₁.pos p = .outside → s₁.locks lk = some p ∧ (s₁.procs p).chan = none) ∧
    ∀ chan status s₁, s.pos p = .sleep chan (.wait status) →
      Steps.Reachable step (fun t _ => t.pos p ≠ .wait status) s s₁ →
      s₁.pos p = .wait status → (∃ c, (s₁.cpus c).stack = some p ∧ s₁.table = some c) ∧ (s₁.procs p).chan = none := by
  have e := reachable.exclusive
  refine ⟨?_,?_,?_,?_⟩
  · intro chan lk c ok s' here on taken
    simp only [step,on,State.turn,here] at taken
    obtain ⟨_,released,rfl⟩ := andThen_ok taken
    obtain ⟨held,n,rfl⟩ := release_ok released
    exact ⟨held,update_self _ _ _,update_self _ _ _⟩
  · intro chan after s₁ a s₂ here path still wakes taken
    have sleeps := Steps.Reachable.invariant
      (I := fun t => Exclusive t.state t.table t.cpus t.pos ∧ (t.state p = .RUNNABLE ∨ t.Sleeps p chan after)) path
      ⟨e,.inr (.inl here)⟩ fun t b t' _ before meets taken =>
        ⟨before.1.step (moves_of_step taken),(before.2.resolve_left meets).step before.1 taken⟩
    exact (sleeps.2.resolve_left still).woken sleeps.1 wakes taken
  · intro chan lk s₁ here path out
    have within := Steps.Reachable.invariant
      (I := fun t => Exclusive t.state t.table t.cpus t.pos ∧ ((t.pos p).InSleep chan (.sleep lk) ∨ t.Relocks p lk)) path
      ⟨e,.inl (.inl here)⟩ fun t b t' _ before meets taken => ?_
    · rcases within.2 with inside | ⟨h | ⟨-,held⟩,clear⟩
      · rw [out] at inside
        rcases inside with h | h | h <;> cases h
      · rw [out] at h
        cases h
      · exact ⟨held,clear⟩
    · refine ⟨before.1.step (moves_of_step taken),?_⟩
      rcases before.2 with inside | ⟨h | ⟨left,-⟩,clear⟩
      · refine (inside.step before.1 rfl taken).imp_right fun back => ⟨.inl ?_,back.2⟩
        rw [back.1]
        rfl
      · exact .inr (State.Relocks.step before.1 h clear taken)
      · exact absurd left meets
  · intro chan status s₁ here path back
    have within := Steps.Reachable.invariant
      (I := fun t => Exclusive t.state t.table t.cpus t.pos ∧ ((t.pos p).InSleep chan (.wait status) ∨
        t.pos p = .wait status ∧ (t.procs p).chan = none)) path
      ⟨e,.inl (.inl here)⟩ fun t b t' _ before meets taken => ?_
    · refine ⟨within.1.holds (by simp [back]) (by simp [back]) (by rw [back]; exact trivial),?_⟩
      rcases within.2 with inside | ⟨-,clear⟩
      · rw [back] at inside
        rcases inside with h | h | h <;> cases h
      · exact clear
    · refine ⟨before.1.step (moves_of_step taken),?_⟩
      rcases before.2 with inside | ⟨left,-⟩
      · exact inside.step before.1 rfl taken
      · exact absurd left meets

/-- The first process takes a lock, calls `sleep`, and gives it up there. -/
def fallsAsleep : List (Action Bool Unit Unit) :=
  List.replicate 4 (.scheduler false) ++ [.turn false true,.call false (.acquire ()),.call false (.sleep () (some ())),.turn false true]

def goesRound : List (Action Bool Unit Unit) := [.turn false true,.turn false true] ++ List.replicate 65 (.scheduler false)

theorem sleep_loses_no_wakeup_interrupt : ∃ s s₁ s₂, after fallsAsleep = some s ∧
    Steps.run step (fun t _ => (t.procs initproc).state ≠ .RUNNABLE) s goesRound = some s₁ ∧
    step s₁ (.interrupt true ()) = some (.ok s₂) ∧ (s₁.procs initproc).state = .SLEEPING ∧
    (s₂.procs initproc).state = .RUNNABLE := by
  have facts : (after fallsAsleep).any (fun s => (s.pos initproc matches .sleep (.addr ()) (.sleep ())) &&
      (Steps.run step (fun t _ => (t.procs initproc).state ≠ .RUNNABLE) s goesRound).any fun s₁ =>
        decide ((s₁.procs initproc).state = .SLEEPING) && decide (s₁.table = none)) = true := by decide +kernel
  obtain ⟨s,run,holds⟩ := (Option.any_eq_true _ _).mp facts
  rw [Bool.and_eq_true] at holds
  obtain ⟨here,later⟩ := holds
  obtain ⟨s₁,path,holds⟩ := (Option.any_eq_true _ _).mp later
  rw [Bool.and_eq_true,decide_eq_true_eq,decide_eq_true_eq] at holds
  obtain ⟨asleep,free⟩ := holds
  have falls : s.pos initproc = .sleep (.addr ()) (.sleep ()) := by
    split at here
    · assumption
    · cases here
  have taken : step s₁ (.interrupt true ()) = some (.ok { s₁ with procs := wakeup1 s₁.procs (some (.addr ())) }) := by
    simp only [step,State.critical,free]
  refine ⟨s,s₁,_,run,path,taken,asleep,?_⟩
  exact (sleep_loses_no_wakeup (reachable_after run) initproc).2.1 _ _ s₁ (.interrupt true ()) _ falls (Steps.reachable_run .start path)
    (by simp [asleep]) rfl taken

end Osce.Procs
