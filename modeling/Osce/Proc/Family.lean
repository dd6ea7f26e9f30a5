import Osce.Proc.Sleep

/-!
Parents and children: `fork`, `exit` and `wait`. Most steps leave alone who exists, who is whose
parent and what has been recorded; the others are those of `fork`, the section of `exit`
and the `wait` that finds a child.
-/
namespace Osce.Procs
open Osce.Lib
open Function (update update_apply update_eq_self update_of_ne update_self)
set_option linter.unusedSectionVars false

variable {C K A : Type} [DecidableEq C] [DecidableEq K] [DecidableEq A]

structure History where
  nextpid : Int
  allocs : Nat
  born : Slot → Nat
  exits : List Exited
  reaps : List Reaped

def State.history (s : State C K A) : History := ⟨s.nextpid,s.allocs,s.born,s.exits,s.reaps⟩

def State.Dozes (s : State C K A) (p : Slot) : Prop :=
  (∃ after, s.pos p = .sleep (.proc p) after) ∨ (s.procs p).state = .SLEEPING ∧ (s.procs p).chan = some (.proc p)

def Pos.Exits : Pos K A → Prop
  | .exiting | .exit | .yield .exit | .sched (.yield .exit) | .back (.yield .exit) => True
  | _ => False

def Place.parent (p : Slot) : Place K → Option Slot
  | .forkCopy _ => some p
  | _ => none

def Pos.parent (p : Slot) (pos : Pos K A) : Option Slot := pos.place.bind (Place.parent p)

structure Proc.Same (pr pr' : Proc A) : Prop where
  state : pr'.state = pr.state ∨ pr.state.Live ∧ pr'.state.Live
  pid : pr'.pid = pr.pid
  parent : pr'.parent = pr.parent
  status : pr'.status = pr.status ∨ pr.state.Live

/-- A step that leaves alone who exists, who is whose parent, and the history. -/
structure Quiet (s : State C K A) (a : Action C K A) (s' : State C K A) : Prop where
  entry : ∀ q, (s.procs q).Same (s'.procs q)
  killed : ∀ q, (s'.procs q).killed = (s.procs q).killed ∨ (s.procs q).state.Live ∨
    ∃ c pid, a = .call c (.kill pid) ∧ find s.procs pid = some q
  fork : ∀ q, (s'.pos q).child = (s.pos q).child ∧ (s'.pos q).parent q = (s.pos q).parent q
  exits : (s'.pos initproc).Exits → (s.pos initproc).Exits
  dozes : ∀ q, s'.Dozes q → s.Dozes q ∨ zombie s.procs q = none
  history : s'.history = s.history

inductive Effect (s : State C K A) (a : Action C K A) (s' : State C K A) : Prop where
  | quiet (quiet : Quiet s a s')
  | full (procs : s'.procs = s.procs) (pos : s'.pos = s.pos)
      (history : s'.history = { s.history with allocs := s.allocs + 1 })
  | forks (p np : Slot) (here : s.pos p = .outside) (found : (s.procs np).state = .UNUSED)
      (procs : s'.procs = Function.update s.procs np { s.procs np with state := .EMBRYO, pid := s.nextpid })
      (pos : s'.pos = Function.update s.pos p (.forkEntry np))
      (history : s'.history = { s.history with
        nextpid := int32 (s.nextpid + 1), allocs := s.allocs + 1, born := Function.update s.born np s.allocs })
  | copies (p np : Slot) (image : Image) (here : s.pos p = .forkStack np)
      (procs : s'.procs = Function.update s.procs np { s.procs np with parent := some p, image := image })
      (pos : s'.pos = Function.update s.pos p (.forkCopy np)) (history : s'.history = s.history)
  | fails (p np : Slot) (here : s.pos p = .forkEntry np ∨ s.pos p = .forkStack np)
      (procs : s'.procs = Function.update s.procs np { s.procs np with state := .UNUSED })
      (pos : s'.pos = Function.update s.pos p .outside) (history : s'.history = s.history)
  | starts (p np : Slot) (here : s.pos p = .forkCopy np)
      (procs : s'.procs = Function.update s.procs np { s.procs np with state := .RUNNABLE })
      (pos : s'.pos = Function.update s.pos p .outside) (history : s'.history = s.history)
  | dies (p : Slot) (here : s.pos p = .exiting) (procs : s'.procs = exit s.procs p)
      (pos : s'.pos = Function.update s.pos p (.sched .exit))
      (history : s'.history = { s.history with exits := ⟨s.born p,(s.procs p).pid,(s.procs p).status⟩ :: s.exits })
  | reaps (p q : Slot) (status : Bool) (here : s.pos p = .wait status) (child : (s.procs q).parent = some p)
      (dead : (s.procs q).state = .ZOMBIE) (procs : s'.procs = reap s.procs q)
      (pos : s'.pos = Function.update s.pos p (.waited (s.procs q).pid))
      (history : s'.history = { s.history with reaps :=
        ⟨p,(s.procs q).parent,s.born q,(s.procs q).pid,if status then some (s.procs q).status else none⟩ :: s.reaps })

section
variable {s s' : State C K A} {a : Action C K A} {c : C} {p q : Slot}

theorem Proc.Same.refl (pr : Proc A) : pr.Same pr := ⟨.inl rfl,rfl,rfl,.inl rfl⟩

theorem Pos.parent_of_childless {pos : Pos K A} (childless : pos.child = none) : pos.parent p = none := by
  rw [Pos.child,Option.bind_eq_none_iff] at childless
  rw [Pos.parent,Option.bind_eq_none_iff]
  intro place here
  have none := childless place here
  cases place <;> first | rfl | cases none

theorem Pos.eq_of_parent {pos : Pos K A} (isParent : pos.parent p = some q) : q = p := by
  obtain ⟨place,-,isParent⟩ := Option.bind_eq_some_iff.mp isParent
  cases place <;> cases isParent
  rfl

theorem fork_update {pos : Pos K A} (kept : (s.pos p).child = none ∧ pos.child = none ∨ pos.place = (s.pos p).place) (q : Slot) :
    (update s.pos p pos q).child = (s.pos q).child ∧
      (update s.pos p pos q).parent q = (s.pos q).parent q := by
  by_cases same : q = p
  · rw [same,update_self]
    rcases kept with ⟨before,after⟩ | place
    · rw [before,after,Pos.parent_of_childless before,Pos.parent_of_childless after]
      exact ⟨rfl,rfl⟩
    · rw [Pos.child,Pos.parent,place]
      exact ⟨rfl,rfl⟩
  · rw [update_of_ne same]
    exact ⟨rfl,rfl⟩

theorem Quiet.idle (procs : s'.procs = s.procs) (pos : s'.pos = s.pos) (history : s'.history = s.history) : Quiet s a s' := by
  refine ⟨?_,?_,?_,?_,?_,history⟩
  · intro q
    rw [procs]
    exact .refl _
  · intro q
    rw [procs]
    exact .inl rfl
  · intro q
    rw [pos]
    exact ⟨rfl,rfl⟩
  · rw [pos]
    exact id
  · intro q dozes
    rw [State.Dozes,procs,pos] at dozes
    exact .inl dozes

theorem Quiet.moves {pos : Pos K A} (procs : s'.procs = s.procs) (moves : s'.pos = update s.pos p pos)
    (kept : (s.pos p).child = none ∧ pos.child = none ∨ pos.place = (s.pos p).place) (stays : pos.Exits → (s.pos p).Exits)
    (dozes : (∃ after, pos = .sleep (.proc p) after) → zombie s.procs p = none)
    (history : s'.history = s.history) : Quiet s a s' := by
  refine ⟨?_,?_,?_,?_,?_,history⟩
  · intro q
    rw [procs]
    exact .refl _
  · intro q
    rw [procs]
    exact .inl rfl
  · rw [moves]
    exact fork_update kept
  · rw [moves]
    by_cases same : initproc = p
    · rw [same,update_self]
      exact stays
    · rw [update_of_ne same]
      exact id
  · intro q later
    rw [State.Dozes,procs,moves] at later
    by_cases same : q = p
    · subst same
      rw [update_self] at later
      exact later.symm.imp .inr dozes
    · rw [update_of_ne same] at later
      exact .inl later

theorem Quiet.acts {pos : Pos K A} {pr : Proc A} (procs : s'.procs = update s.procs p pr)
    (moves : s'.pos = update s.pos p pos) (live : (s.procs p).state.Live) (still : pr.state.Live)
    (pid : pr.pid = (s.procs p).pid) (parent : pr.parent = (s.procs p).parent)
    (kept : (s.pos p).child = none ∧ pos.child = none ∨ pos.place = (s.pos p).place) (stays : pos.Exits → (s.pos p).Exits ∨ p ≠ initproc)
    (dozes : (∃ after, pos = .sleep (.proc p) after) ∨ pr.state = .SLEEPING ∧ pr.chan = some (.proc p) → s.Dozes p)
    (history : s'.history = s.history) : Quiet s a s' := by
  refine ⟨?_,?_,?_,?_,?_,history⟩
  · intro q
    rw [procs]
    by_cases same : q = p
    · rw [same,update_self]
      exact ⟨.inr ⟨live,still⟩,pid,parent,.inr live⟩
    · rw [update_of_ne same]
      exact .refl _
  · intro q
    rw [procs]
    by_cases same : q = p
    · rw [same]
      exact .inr (.inl live)
    · rw [update_of_ne same]
      exact .inl rfl
  · rw [moves]
    exact fork_update kept
  · rw [moves]
    by_cases same : initproc = p
    · rw [same,update_self]
      exact fun h => (stays h).resolve_right fun other => other same.symm
    · rw [update_of_ne same]
      exact id
  · intro q later
    rw [State.Dozes,procs,moves] at later
    by_cases same : q = p
    · subst same
      rw [update_self,update_self] at later
      exact .inl (dozes later)
    · rw [update_of_ne same,update_of_ne same] at later
      exact .inl later

theorem Quiet.wakes (pos : s'.pos = s.pos) (history : s'.history = s.history)
    (woken : ∀ q, ∃ st killed, s'.procs q = { s.procs q with state := st, killed := killed } ∧
      (st = (s.procs q).state ∨ st = .RUNNABLE ∧ (s.procs q).state = .SLEEPING) ∧
      (killed = (s.procs q).killed ∨ ∃ c pid, a = .call c (.kill pid) ∧ find s.procs pid = some q)) : Quiet s a s' := by
  refine ⟨?_,?_,?_,?_,?_,history⟩
  · intro q
    obtain ⟨st,killed,entry,state,-⟩ := woken q
    rw [entry]
    refine ⟨state.imp_right ?_,rfl,rfl,.inl rfl⟩
    rintro ⟨ready,asleep⟩
    exact ⟨.inl asleep,.inr (.inl ready)⟩
  · intro q
    obtain ⟨st,killed,entry,-,same⟩ := woken q
    rw [entry]
    exact same.imp_right .inr
  · intro q
    rw [pos]
    exact ⟨rfl,rfl⟩
  · rw [pos]
    exact id
  · intro q later
    obtain ⟨st,killed,entry,state,-⟩ := woken q
    rw [State.Dozes,pos,entry] at later
    refine .inl (later.imp_right fun ⟨asleep,set⟩ => ⟨?_,set⟩)
    rcases state with same | ⟨ready,-⟩
    · exact same.symm.trans asleep
    · cases ready.symm.trans asleep

theorem Moves.effect (e : Exclusive s.state s.table s.cpus s.pos) (m : Moves s a s') : Effect s a s' := by
  have runs {c : C} {p : Slot} (on : (s.cpus c).stack = some p) : (s.procs p).state = (s.pos p).state := (e.of_stack on).1
  cases m with
  | takes => exact .quiet (.idle rfl rfl rfl)
  | skips => exact .quiet (.idle rfl rfl rfl)
  | rests => exact .quiet (.idle rfl rfl rfl)
  | chooses => exact .quiet (.idle rfl rfl rfl)
  | @marks c p on here =>
    have fits := e.on c p (by rw [(e.cpu c).proc,here]; rfl)
    simp only [Cpu.Suits,on,here] at fits
    refine .quiet (.acts (p := p) rfl (update_eq_self _ _).symm (.inr (.inl fits.1)) (.inr (.inr rfl)) rfl rfl
      (.inr rfl) .inl ?_ rfl)
    rintro (falls | ⟨h,-⟩)
    · exact .inl falls
    · cases h
  | switches => exact .quiet (.idle rfl rfl rfl)
  | resumes => exact .quiet (.idle rfl rfl rfl)
  | wakes free calls =>
    refine .quiet (.wakes rfl rfl fun q => ⟨_,_,wakeup1_eq _ _ q,?_,.inl rfl⟩)
    split
    · rename_i asleep
      exact .inr ⟨rfl,asleep.1⟩
    · exact .inl rfl
  | @kills c p pid on here free =>
    refine .quiet (.wakes rfl rfl fun q => ⟨_,_,kill_eq _ _ q,?_,?_⟩)
    · split
      · rename_i asleep
        exact .inr ⟨rfl,asleep.2⟩
      · exact .inl rfl
    · split
      · exact .inr ⟨c,pid,rfl,‹_›⟩
      · exact .inl rfl
  | pstats => exact .quiet (.idle rfl rfl rfl)
  | full => exact .full rfl rfl rfl
  | @forks c p np on here free found => exact .forks p np here found rfl rfl rfl
  | @starts c p np ok on here free => exact .starts p np here rfl rfl rfl
  | acquires => exact .quiet (.idle rfl rfl rfl)
  | releases => exact .quiet (.idle rfl rfl rfl)
  | @relocks c p lk ok n on here free =>
    exact .quiet (.moves (p := p) rfl rfl (.inl ⟨by rw [here]; rfl,rfl⟩) False.elim (by simp) rfl)
  | @enters _ c p pos n on free how =>
    refine .quiet (.moves (p := p) rfl rfl ?_ ?_ ?_ rfl)
    · rcases how with ⟨here,⟨_,_,-,rfl⟩ | ⟨_,-,rfl⟩⟩ | ⟨here,rfl,-⟩ | ⟨place,here,rfl,-⟩
      · exact .inl ⟨by rw [here]; rfl,rfl⟩
      · exact .inl ⟨by rw [here]; rfl,rfl⟩
      · exact .inl ⟨by rw [here]; rfl,rfl⟩
      · exact .inr (by rw [here]; rfl)
    · rcases how with ⟨here,⟨_,_,-,rfl⟩ | ⟨_,-,rfl⟩⟩ | ⟨here,rfl,-⟩ | ⟨place,here,rfl,-⟩
      · exact False.elim
      · exact False.elim
      · rw [here]
        exact id
      · rw [here]
        cases place <;> exact id
    · rintro ⟨after,rfl⟩
      rcases how with ⟨-,⟨_,_,-,h⟩ | ⟨_,-,h⟩⟩ | ⟨-,h,-⟩ | ⟨_,-,h,-⟩ <;> cases h
  | @leaves c p place ok n ret on here =>
    refine .quiet (.moves (p := p) rfl rfl ?_ ?_ (by simp) rfl)
    · rcases here with ⟨here | ⟨r,here⟩,rfl⟩ | here
      · exact .inl ⟨by rw [here]; rfl,rfl⟩
      · exact .inl ⟨by rw [here]; rfl,rfl⟩
      · exact .inr (by rw [here]; rfl)
    · rcases here with ⟨-,rfl⟩ | here
      · exact False.elim
      · rw [here]
        cases place <;> exact id
  | @wakened c p lk ok n on here =>
    have st := runs on
    rw [here] at st
    refine .quiet (.acts (p := p) rfl rfl (.inr (.inr st)) (.inr (.inr st)) rfl rfl (.inl ⟨by rw [here]; rfl,rfl⟩) False.elim ?_ rfl)
    rintro (⟨_,h⟩ | ⟨-,h⟩) <;> cases h
  | @yields c p place ok on here =>
    have st := runs on
    rw [here] at st
    refine .quiet (.acts (p := p) rfl rfl (.inr (.inr st)) (.inr (.inl rfl)) rfl rfl (.inr (by rw [here]; rfl)) ?_ ?_ rfl)
    · rw [here]
      cases place <;> exact .inl
    · rintro (⟨_,h⟩ | ⟨h,-⟩) <;> cases h
  | @gives c p chan lk ok n on here held =>
    refine .quiet (.moves (p := p) rfl rfl (.inl ⟨by rw [here]; rfl,rfl⟩) False.elim ?_ rfl)
    rintro ⟨after,h⟩
    cases h
    have fits := (e.of_stack on).2
    rw [here] at fits
    exact fits.elim
  | @sleeps c p chan after ok on here =>
    have st := runs on
    rw [here] at st
    have falls := (e.of_stack on).2
    rw [here] at falls
    refine .quiet (.acts (p := p) rfl rfl (.inr (.inr st)) (.inl rfl) rfl rfl (.inl ⟨by rw [here]; rfl,?_⟩) ?_ ?_ rfl)
    · cases after <;> first | rfl | cases falls
    · cases after <;> first | exact False.elim | cases falls
    rintro (⟨_,h⟩ | ⟨-,set⟩)
    · cases h
    · cases set
      exact .inl ⟨after,here⟩
  | @swtch c p after ok on here =>
    refine .quiet (.moves (p := p) rfl rfl (.inr ?_) ?_ (by simp) rfl)
    · rw [here]
      cases after <;> rfl
    · rw [here]
      cases after with
      | yield place => cases place <;> exact id
      | _ => exact id
  | @rewaits c p status ok on here =>
    have st := runs on
    rw [here] at st
    refine .quiet (.acts (p := p) rfl rfl (.inr (.inr st)) (.inr (.inr st)) rfl rfl (.inl ⟨by rw [here]; rfl,rfl⟩) False.elim ?_ rfl)
    rintro (⟨_,h⟩ | ⟨-,h⟩) <;> cases h
  | @dies c p ok on here => exact .dies p here rfl rfl rfl
  | @reaps c p q status ok on here child dead => exact .reaps p q status here child dead rfl rfl rfl
  | @waits c p status ok on here none childless =>
    exact .quiet (.moves (p := p) rfl rfl (.inl ⟨by rw [here]; rfl,rfl⟩) False.elim (by simp) rfl)
  | @dozes c p status ok on here none =>
    exact .quiet (.moves (p := p) rfl rfl (.inl ⟨by rw [here]; rfl,rfl⟩) False.elim (fun _ => none) rfl)
  | @exits c p status image on here other =>
    have st := runs on
    rw [here] at st
    refine .quiet (.acts (p := p) rfl rfl (.inr (.inr st)) (.inr (.inr st)) rfl rfl (.inl ⟨by rw [here]; rfl,rfl⟩) (fun _ => .inr other) ?_ rfl)
    rintro (⟨_,h⟩ | asleep)
    · cases h
    · exact .inr asleep
  | @changes c call p killed image on here =>
    have st := runs on
    rw [here] at st
    exact .quiet (.acts (p := p) rfl (update_eq_self _ _).symm (.inr (.inr st)) (.inr (.inr st)) rfl rfl
      (.inr rfl) .inl id rfl)
  | @kstack c p np ok on here =>
    have child : (s.pos p).child = some np := by rw [here]; rfl
    have apart : np ≠ p := by
      rintro rfl
      exact e.embryo_off child c (e.proc_of_stack on)
    have rests := e.off np (e.embryo_off child)
    have places (q : Slot) : ((s.goto np .forkret).goto p (.forkStack np)).pos q = s.pos q ∨
        ((s.goto np .forkret).goto p (.forkStack np)).pos q = .forkret ∨
        ((s.goto np .forkret).goto p (.forkStack np)).pos q = .forkStack np := by
      simp only [State.goto,update_apply]
      split_ifs <;> simp
    refine .quiet ⟨fun _ => .refl _,fun _ => .inl rfl,fun q => ?_,fun exits => ?_,fun q later => .inl ?_,rfl⟩
    · simp only [State.goto]
      by_cases same : q = p
      · rw [same,update_self,here]
        exact ⟨rfl,rfl⟩
      · rw [update_of_ne same]
        refine fork_update (.inl ⟨rests.child ?_,rfl⟩) q
        rw [(e.embryo p np child).1]
        simp
    · rcases places initproc with same | fresh | forks
      · rwa [← same]
      · rw [fresh] at exits
        cases exits
      · rw [forks] at exits
        cases exits
    · refine later.imp_left ?_
      rintro ⟨after,falls⟩
      rcases places q with same | fresh | forks
      · exact ⟨after,same.symm.trans falls⟩
      · cases fresh.symm.trans falls
      · cases forks.symm.trans falls
  | @copies c p np ok image on here => exact .copies p np image here rfl rfl rfl
  | @fails c p np ok on here => exact .fails p np here rfl rfl rfl

end

/-- Every process but the first has a live parent, and nobody sleeps in `wait` while a child
    has exited. -/
structure Kin (s : State C K A) : Prop where
  unused : ∀ q, (s.procs q).state = .UNUSED → (s.procs q).parent = none
  forked : ∀ q, (s.procs q).state = .EMBRYO → ∃ p, (s.pos p).child = some q
  copied : ∀ p np, (s.pos p).child = some np → (s.procs np).parent = (s.pos p).parent p
  init : (s.procs initproc).state.Live ∧ (s.procs initproc).parent = none ∧ ¬ (s.pos initproc).Exits
  parent : ∀ q, q ≠ initproc → (s.procs q).state ≠ .UNUSED → (s.procs q).state ≠ .EMBRYO →
    ∃ p, (s.procs q).parent = some p ∧ p ≠ q ∧ (s.procs p).state.Live
  dozes : ∀ p, s.Dozes p → ∀ q, (s.procs q).parent = some p → (s.procs q).state ≠ .ZOMBIE

section
variable {s s' : State C K A} {a : Action C K A} {c : C} {p q np : Slot} {pr pr' : Proc A} {st : ProcState}

theorem Proc.Same.dead (same : pr.Same pr') (dead : ¬ st.Live) : pr'.state = st ↔ pr.state = st := by
  rcases same.state with h | ⟨was,now⟩
  · rw [h]
  · constructor
    · rintro rfl
      exact absurd now dead
    · rintro rfl
      exact absurd was dead

theorem Proc.Same.live (same : pr.Same pr') : pr'.state.Live ↔ pr.state.Live := by
  rcases same.state with h | ⟨was,now⟩
  · rw [h]
  · exact ⟨fun _ => was,fun _ => now⟩

theorem not_live_unused : ¬ ProcState.UNUSED.Live := nofun
theorem not_live_embryo : ¬ ProcState.EMBRYO.Live := nofun
theorem not_live_zombie : ¬ ProcState.ZOMBIE.Live := nofun

theorem Kin.quiet (k : Kin s) (quiet : Quiet s a s') : Kin s' where
  unused q unused := by
    rw [(quiet.entry q).parent]
    exact k.unused q (((quiet.entry q).dead not_live_unused).mp unused)
  forked q embryo := by
    obtain ⟨p,child⟩ := k.forked q (((quiet.entry q).dead not_live_embryo).mp embryo)
    exact ⟨p,(quiet.fork p).1.trans child⟩
  copied p np child := by
    rw [(quiet.fork p).1] at child
    rw [(quiet.fork p).2,(quiet.entry np).parent]
    exact k.copied p np child
  init := by
    refine ⟨(quiet.entry _).live.mpr k.init.1,?_,fun exits => k.init.2.2 (quiet.exits exits)⟩
    rw [(quiet.entry _).parent]
    exact k.init.2.1
  parent q other used grown := by
    obtain ⟨p,isParent,apart,live⟩ := k.parent q other (mt ((quiet.entry q).dead not_live_unused).mpr used)
      (mt ((quiet.entry q).dead not_live_embryo).mpr grown)
    exact ⟨p,(quiet.entry q).parent.trans isParent,apart,(quiet.entry p).live.mpr live⟩
  dozes p later q child dead := by
    rw [(quiet.entry q).parent] at child
    rw [(quiet.entry q).dead not_live_zombie] at dead
    rcases quiet.dozes p later with before | none
    · exact k.dozes p before q child dead
    · exact zombie_none none q child dead

structure Forks (s : State C K A) (p np : Slot) (pos : Pos K A) (pr : Proc A) : Prop where
  apart : np ≠ p
  fresh : ¬ (s.procs np).state.Live
  only : ∀ q, q ≠ p → (s.pos q).child ≠ some np
  mine : ∀ q, (s.pos p).child = some q ∨ pos.child = some q → q = np
  unused : pr.state = .UNUSED → pr.parent = none
  embryo : pr.state = .EMBRYO → pos.child = some np
  copied : pos.child = some np → pr.parent = pos.parent p
  started : pr.state ≠ .UNUSED → pr.state ≠ .EMBRYO → pr.state = .RUNNABLE ∧ pr.parent = some p ∧ (s.procs p).state.Live
  place : ¬ pos.Exits ∧ ∀ chan after, pos ≠ .sleep chan after

theorem Forks.awake {pos : Pos K A} (forks : Forks s p np pos pr) : pr.state ≠ .ZOMBIE ∧ pr.state ≠ .SLEEPING := by
  by_cases unused : pr.state = .UNUSED
  · rw [unused]
    exact ⟨nofun,nofun⟩
  · by_cases embryo : pr.state = .EMBRYO
    · rw [embryo]
      exact ⟨nofun,nofun⟩
    · rw [(forks.started unused embryo).1]
      exact ⟨nofun,nofun⟩

theorem Forks.dozes {pos : Pos K A} (forks : Forks s p np pos pr) (procs : s'.procs = update s.procs np pr)
    (moves : s'.pos = update s.pos p pos) (later : s'.Dozes q) : s.Dozes q := by
  rw [State.Dozes,procs,moves] at later
  rcases later with ⟨after,falls⟩ | ⟨asleep,set⟩
  · by_cases same : q = p
    · subst same
      rw [update_self] at falls
      exact absurd falls (forks.place.2 _ _)
    · rw [update_of_ne same] at falls
      exact .inl ⟨after,falls⟩
  · by_cases same : q = np
    · subst same
      rw [update_self] at asleep
      exact absurd asleep forks.awake.2
    · rw [update_of_ne same] at asleep set
      exact .inr ⟨asleep,set⟩

theorem Kin.fork {pos : Pos K A} (k : Kin s) (procs : s'.procs = update s.procs np pr)
    (moves : s'.pos = update s.pos p pos) (forks : Forks s p np pos pr) : Kin s' := by
  have apart (q : Slot) (live : (s.procs q).state.Live) : q ≠ np := by
    rintro rfl
    exact forks.fresh live
  refine ⟨?_,?_,?_,?_,?_,?_⟩
  · intro q
    rw [procs]
    by_cases same : q = np
    · rw [same,update_self]
      exact forks.unused
    · rw [update_of_ne same]
      exact k.unused q
  · intro q
    rw [procs,moves]
    by_cases same : q = np
    · rw [same,update_self]
      intro embryo
      refine ⟨p,?_⟩
      rw [update_self]
      exact forks.embryo embryo
    · rw [update_of_ne same]
      intro embryo
      obtain ⟨r,child⟩ := k.forked q embryo
      refine ⟨r,?_⟩
      rwa [update_of_ne]
      rintro rfl
      exact same (forks.mine q (.inl child))
  · intro r x
    rw [procs,moves]
    by_cases same : r = p
    · rw [same,update_self]
      intro child
      cases forks.mine x (.inr child)
      rw [update_self]
      exact forks.copied child
    · rw [update_of_ne same]
      intro child
      rw [update_of_ne]
      · exact k.copied r x child
      · rintro rfl
        exact forks.only r same child
  · rw [procs,moves,update_of_ne (apart _ k.init.1)]
    refine ⟨k.init.1,k.init.2.1,?_⟩
    by_cases same : initproc = p
    · rw [same,update_self]
      exact forks.place.1
    · rw [update_of_ne same]
      exact k.init.2.2
  · intro q other
    rw [procs]
    by_cases same : q = np
    · rw [same,update_self]
      intro used grown
      obtain ⟨-,isParent,live⟩ := forks.started used grown
      refine ⟨p,isParent,forks.apart.symm,?_⟩
      rwa [update_of_ne forks.apart.symm]
    · rw [update_of_ne same]
      intro used grown
      obtain ⟨r,isParent,different,live⟩ := k.parent q other used grown
      refine ⟨r,isParent,different,?_⟩
      rwa [update_of_ne (apart r live)]
  · intro r later q
    have before := forks.dozes procs moves later
    rw [procs]
    by_cases same : q = np
    · rw [same,update_self]
      exact fun _ => forks.awake.1
    · rw [update_of_ne same]
      exact k.dozes r before q

theorem exit_state (t : Table A) (other : q ≠ p) :
    ((exit t p q).state = (t q).state ∨ (exit t p q).state = .RUNNABLE ∧ (t q).state = .SLEEPING) := by
  rw [exit_other t other]
  simp only
  split
  · rename_i asleep
    exact .inr ⟨rfl,asleep.1⟩
  · exact .inl rfl

theorem exit_live (t : Table A) (other : q ≠ p) (live : (t q).state.Live) : (exit t p q).state.Live := by
  rcases exit_state t other with same | ⟨ready,-⟩
  · rwa [same]
  · rw [ready]
    exact .inr (.inl rfl)

theorem exit_dead (t : Table A) (other : q ≠ p) (dead : ¬ st.Live) : (exit t p q).state = st ↔ (t q).state = st := by
  rcases exit_state t other with same | ⟨ready,asleep⟩
  · rw [same]
  · rw [ready,asleep]
    constructor
    · rintro rfl
      exact absurd (.inr (.inl rfl)) dead
    · rintro rfl
      exact absurd (.inl rfl) dead

theorem exit_parent (t : Table A) (q : Slot) :
    (exit t p q).parent = if (t q).parent = some p then some initproc else (t q).parent := by
  by_cases same : q = p
  · rw [same,exit_self]
  · rw [exit_other t same]

theorem exit_asleep (t : Table A) {x : Slot} (other : x ≠ p) (asleep : (exit t p x).state = .SLEEPING)
    (set : (exit t p x).chan = some (.proc x)) :
    (t x).state = .SLEEPING ∧ (t x).chan = some (.proc x) ∧ (t p).parent ≠ some x ∧
      (x = initproc → ∀ z, (t z).parent = some p → (t z).state ≠ .ZOMBIE) := by
  rw [exit_other t other] at asleep set
  simp only at asleep set
  split at asleep
  · cases asleep
  · rename_i quiet
    rw [not_and] at quiet
    obtain ⟨first,second⟩ := not_or.mp (quiet asleep)
    refine ⟨asleep,set,?_,?_⟩
    · intro isParent
      rw [isParent] at first
      exact first set
    · rintro rfl z child dead
      exact second ⟨set,z,child,dead⟩

theorem Kin.dies (k : Kin s) (e : Exclusive s.state s.table s.cpus s.pos) (here : s.pos p = .exiting)
    (procs : s'.procs = exit s.procs p) (moves : s'.pos = update s.pos p (.sched .exit)) : Kin s' := by
  obtain ⟨c,on,held⟩ := e.holds (p := p) (by rw [here]; exact nofun) (by rw [here]; exact nofun) (by rw [here]; exact trivial)
  have runs : (s.procs p).state = .RUNNING := by
    have st := (e.of_stack on).1
    rwa [here] at st
  have notInit : p ≠ initproc := by
    rintro rfl
    exact k.init.2.2 (by rw [here]; exact trivial)
  obtain ⟨father,isFather,different,fatherLives⟩ := k.parent p notInit (by rw [runs]; exact nofun) (by rw [runs]; exact nofun)
  have place (q : Slot) : q = p ∧ s'.pos q = .sched .exit ∨ q ≠ p ∧ s'.pos q = s.pos q := by
    rw [moves]
    by_cases same : q = p
    · exact .inl ⟨same,by rw [same,update_self]⟩
    · exact .inr ⟨same,update_of_ne same _ _⟩
  have dead : (s'.procs p).state = .ZOMBIE := by rw [procs,exit_self]
  refine ⟨?_,?_,?_,?_,?_,?_⟩
  · intro q unused
    have other : q ≠ p := by
      rintro rfl
      cases dead.symm.trans unused
    rw [procs,exit_dead _ other not_live_unused] at unused
    rw [procs,exit_parent,k.unused q unused,if_neg nofun]
  · intro q embryo
    have other : q ≠ p := by
      rintro rfl
      cases dead.symm.trans embryo
    rw [procs,exit_dead _ other not_live_embryo] at embryo
    obtain ⟨r,child⟩ := k.forked q embryo
    refine ⟨r,?_⟩
    rcases place r with ⟨rfl,-⟩ | ⟨-,same⟩
    · rw [here] at child
      cases child
    · rwa [same]
  · intro r np child
    rcases place r with ⟨rfl,now⟩ | ⟨other,same⟩
    · rw [now] at child
      cases child
    · rw [same] at child ⊢
      rw [procs,exit_parent,k.copied r np child,if_neg]
      intro isP
      exact other (Pos.eq_of_parent isP).symm
  · rw [procs]
    refine ⟨exit_live _ notInit.symm k.init.1,by rw [exit_parent,k.init.2.1,if_neg nofun],?_⟩
    rcases place initproc with ⟨same,-⟩ | ⟨-,same⟩
    · exact absurd same.symm notInit
    · rw [same]
      exact k.init.2.2
  · intro q other used grown
    rw [procs] at used grown ⊢
    rw [exit_parent]
    by_cases same : q = p
    · rw [same,isFather,if_neg (fun h => different (Option.some.inj h))]
      exact ⟨father,rfl,different,exit_live _ different fatherLives⟩
    · rw [ne_eq,exit_dead _ same not_live_unused] at used
      rw [ne_eq,exit_dead _ same not_live_embryo] at grown
      obtain ⟨x,isParent,apart,live⟩ := k.parent q other used grown
      rw [isParent]
      by_cases isP : x = p
      · rw [isP,if_pos rfl]
        exact ⟨initproc,rfl,other.symm,exit_live _ notInit.symm k.init.1⟩
      · rw [if_neg (fun h => isP (Option.some.inj h))]
        exact ⟨x,rfl,apart,exit_live _ isP live⟩
  · intro x later q child isDead
    have other : x ≠ p := by
      rintro rfl
      rcases later with ⟨after,falls⟩ | ⟨asleep,-⟩
      · rcases place x with ⟨-,now⟩ | ⟨no,-⟩
        · cases now.symm.trans falls
        · exact no rfl
      · cases dead.symm.trans asleep
    -- no other process is on its way to sleep, since this one has the lock
    have asleep : (s'.procs x).state = .SLEEPING ∧ (s'.procs x).chan = some (.proc x) := by
      refine later.resolve_left fun ⟨after,falls⟩ => ?_
      rcases place x with ⟨isP,-⟩ | ⟨-,same⟩
      · exact other isP
      · rw [same] at falls
        obtain ⟨d,there,also,-⟩ := e.falls falls
        cases held.symm.trans also
        exact other (Option.some.inj (there.symm.trans on))
    rw [procs] at asleep child isDead
    obtain ⟨before,set,notFather,orphans⟩ := exit_asleep _ other asleep.1 asleep.2
    rw [exit_parent] at child
    by_cases orphan : (s.procs q).parent = some p
    · rw [if_pos orphan] at child
      have different : q ≠ p := by
        rintro rfl
        exact different (Option.some.inj (isFather.symm.trans orphan))
      exact orphans (Option.some.inj child).symm q orphan ((exit_dead _ different not_live_zombie).mp isDead)
    · rw [if_neg orphan] at child
      by_cases same : q = p
      · rw [same] at child
        exact notFather child
      · exact k.dozes x (.inr ⟨before,set⟩) q child ((exit_dead _ same not_live_zombie).mp isDead)

theorem Kin.reaps {pos : Pos K A} (k : Kin s) (e : Exclusive s.state s.table s.cpus s.pos)
    (dead : (s.procs q).state = .ZOMBIE) (procs : s'.procs = reap s.procs q)
    (moves : s'.pos = update s.pos p pos) (childless : (s.pos p).child = none ∧ pos.child = none)
    (place : ¬ pos.Exits ∧ ∀ chan after, pos ≠ .sleep chan after) : Kin s' := by
  have entry (r : Slot) : r = q ∧ (s'.procs r).state = .UNUSED ∧ (s'.procs r).parent = none ∨ r ≠ q ∧ s'.procs r = s.procs r := by
    rw [procs,reap]
    by_cases same : r = q
    · rw [same,update_self]
      exact .inl ⟨rfl,rfl,rfl⟩
    · exact .inr ⟨same,update_of_ne same _ _⟩
  have live (r : Slot) (lives : (s.procs r).state.Live) : s'.procs r = s.procs r := by
    rcases entry r with ⟨rfl,-⟩ | ⟨-,same⟩
    · rw [dead] at lives
      exact absurd lives not_live_zombie
    · exact same
  have forks (r : Slot) := fork_update (s := s) (.inl childless) r
  rw [← moves] at forks
  refine ⟨?_,?_,?_,?_,?_,?_⟩
  · intro r unused
    rcases entry r with ⟨-,-,none⟩ | ⟨-,same⟩
    · exact none
    · rw [same] at unused ⊢
      exact k.unused r unused
  · intro r embryo
    rcases entry r with ⟨-,unused,-⟩ | ⟨-,same⟩
    · cases unused.symm.trans embryo
    · rw [same] at embryo
      obtain ⟨x,isChild⟩ := k.forked r embryo
      exact ⟨x,(forks x).1.trans isChild⟩
  · intro x np isChild
    rw [(forks x).1] at isChild
    rw [(forks x).2]
    rcases entry np with ⟨rfl,-⟩ | ⟨-,same⟩
    · have isEmbryo := (e.embryo x np isChild).1
      rw [State.state,dead] at isEmbryo
      cases isEmbryo
    · rw [same]
      exact k.copied x np isChild
  · rw [live _ k.init.1]
    refine ⟨k.init.1,k.init.2.1,?_⟩
    rw [moves]
    by_cases same : initproc = p
    · rw [same,update_self]
      exact place.1
    · rw [update_of_ne same]
      exact k.init.2.2
  · intro r other used grown
    rcases entry r with ⟨-,unused,-⟩ | ⟨-,same⟩
    · exact absurd unused used
    · rw [same] at used grown ⊢
      obtain ⟨x,isParent,apart,lives⟩ := k.parent r other used grown
      exact ⟨x,isParent,apart,by rwa [live x lives]⟩
  · intro x later r isChild isDead
    have before : s.Dozes x := by
      rcases later with ⟨after,falls⟩ | ⟨asleep,set⟩
      · rw [moves] at falls
        by_cases same : x = p
        · rw [same,update_self] at falls
          exact absurd falls (place.2 _ _)
        · rw [update_of_ne same] at falls
          exact .inl ⟨after,falls⟩
      · rcases entry x with ⟨-,unused,-⟩ | ⟨-,same⟩
        · cases unused.symm.trans asleep
        · rw [same] at asleep set
          exact .inr ⟨asleep,set⟩
    rcases entry r with ⟨-,unused,-⟩ | ⟨-,same⟩
    · cases unused.symm.trans isDead
    · rw [same] at isChild isDead
      exact k.dozes x before r isChild isDead

theorem Kin.same (k : Kin s) (procs : s'.procs = s.procs) (pos : s'.pos = s.pos) : Kin s' := by
  have dozes (p : Slot) : s'.Dozes p ↔ s.Dozes p := by rw [State.Dozes,State.Dozes,procs,pos]
  refine ⟨?_,?_,?_,?_,?_,?_⟩
  · rw [procs]
    exact k.unused
  · rw [procs,pos]
    exact k.forked
  · rw [procs,pos]
    exact k.copied
  · rw [procs,pos]
    exact k.init
  · rw [procs]
    exact k.parent
  · intro p later
    rw [procs]
    exact k.dozes p ((dozes p).mp later)

theorem Kin.step (k : Kin s) (e : Exclusive s.state s.table s.cpus s.pos) (effect : Effect s a s') : Kin s' := by
  -- what holds of every `fork` that has an entry
  have forker {p np : Slot} (child : (s.pos p).child = some np) : s.state np = .EMBRYO ∧ np ≠ p ∧ (s.state p).Live ∧
      (∀ q, q ≠ p → (s.pos q).child ≠ some np) ∧ ∀ q, (s.pos p).child = some q → q = np := by
    obtain ⟨place,here,-⟩ := Option.bind_eq_some_iff.mp child
    have isEmbryo := (e.embryo p np child).1
    have live := e.live_place here
    refine ⟨isEmbryo,?_,live,fun q other also => other (e.single q p np also child),fun q also => ?_⟩
    · rintro rfl
      rw [isEmbryo] at live
      exact not_live_embryo live
    · exact Option.some.inj (also.symm.trans child)
  cases effect with
  | quiet quiet => exact k.quiet quiet
  | full procs pos history => exact k.same procs pos
  | forks p np here found procs pos history =>
    refine k.fork procs pos ⟨?_,?_,?_,?_,by simp,fun _ => rfl,fun _ => k.unused np found,fun _ h => absurd rfl h,id,by simp⟩
    · rintro rfl
      obtain ⟨c,on⟩ := e.on_stack (p := np) (by simp [here]) (by simp [here])
      exact e.unused_off found c (e.proc_of_stack on)
    · rw [found]
      exact not_live_unused
    · intro q other child
      have isEmbryo := (forker child).1
      rw [State.state,found] at isEmbryo
      cases isEmbryo
    · rintro q (child | child)
      · rw [here] at child
        cases child
      · exact (Option.some.inj child).symm
  | copies p np image here procs pos history =>
    have child : (s.pos p).child = some np := by rw [here]; rfl
    obtain ⟨isEmbryo,apart,live,only,mine⟩ := forker child
    refine k.fork procs pos ⟨apart,?_,only,?_,?_,fun _ => rfl,fun _ => rfl,fun _ h => absurd isEmbryo h,id,by simp⟩
    · exact fun live => not_live_embryo (isEmbryo ▸ live)
    · rintro q (child | child)
      · exact mine q child
      · exact (Option.some.inj child).symm
    · intro unused
      cases unused.symm.trans isEmbryo
  | fails p np here procs pos history =>
    have child : (s.pos p).child = some np := by rcases here with here | here <;> rw [here] <;> rfl
    have orphan : (s.pos p).parent p = none := by rcases here with here | here <;> rw [here] <;> rfl
    obtain ⟨isEmbryo,apart,live,only,mine⟩ := forker child
    refine k.fork procs pos ⟨apart,?_,only,?_,fun _ => ?_,by simp,by simp [Pos.child,Pos.place,Place.child],fun h => absurd rfl h,id,by simp⟩
    · exact fun live => not_live_embryo (isEmbryo ▸ live)
    · rintro q (child | child)
      · exact mine q child
      · cases child
    · exact (k.copied p np child).trans orphan
  | starts p np here procs pos history =>
    have child : (s.pos p).child = some np := by rw [here]; rfl
    obtain ⟨isEmbryo,apart,live,only,mine⟩ := forker child
    refine k.fork procs pos ⟨apart,?_,only,?_,by simp,by simp,by simp [Pos.child,Pos.place,Place.child],fun _ _ => ⟨rfl,?_,live⟩,id,by simp⟩
    · exact fun live => not_live_embryo (isEmbryo ▸ live)
    · rintro q (child | child)
      · exact mine q child
      · cases child
    · have isParent := k.copied p np child
      rwa [here] at isParent
  | dies p here procs pos history => exact k.dies e here procs pos
  | reaps p q status here child dead procs pos history =>
    exact k.reaps e dead procs pos ⟨by rw [here]; rfl,rfl⟩ ⟨id,by simp⟩

theorem Kin.start (image : Slot → Image) : Kin (State.init C K A image) := by
  have first : ((State.init C K A image).procs initproc).state = .RUNNABLE := rfl
  have other (q : Slot) (notInit : q ≠ initproc) : ((State.init C K A image).procs q).state = .UNUSED := by
    simp [State.init,notInit]
  have orphan (q : Slot) : ((State.init C K A image).procs q).parent = none := by
    simp only [State.init]
    split <;> rfl
  refine ⟨fun q _ => orphan q,?_,by simp [State.init,Pos.child,Pos.place],⟨.inr (.inl first),orphan _,id⟩,?_,?_⟩
  · intro q embryo
    by_cases isInit : q = initproc
    · rw [isInit] at embryo
      cases first.symm.trans embryo
    · cases (other q isInit).symm.trans embryo
  · intro q notInit used
    exact absurd (other q notInit) used
  · intro p _ q child
    rw [orphan] at child
    cases child

theorem Reachable.kin {image : Slot → Image} (reachable : Reachable image s) : Kin s :=
  Steps.Reachable.invariant (I := Kin) reachable (Kin.start image)
    fun _ _ _ before k _ taken => k.step (Reachable.exclusive before) ((moves_of_step taken).effect (Reachable.exclusive before))

end

end Osce.Procs
