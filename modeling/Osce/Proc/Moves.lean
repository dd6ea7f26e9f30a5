import Osce.Proc.Code

/-!
What the functions on the process table do, entry by entry, and what a step can do.
-/
namespace Osce.Procs
open Osce.Lib
set_option linter.unusedSectionVars false

variable {C K A : Type} [DecidableEq C] [DecidableEq K] [DecidableEq A]

section
variable {t : Table A} {p q : Slot} {chan : Option (Chan A)} {pid : Int}

theorem unused_some (found : unused t = some p) : (t p).state = .UNUSED := by
  simpa using List.find?_some found

theorem find_some (found : find t pid = some p) : (t p).pid = pid := by
  simpa using List.find?_some found

theorem find_none (absent : find t pid = none) (q : Slot) : (t q).pid ≠ pid := by
  simpa using List.find?_eq_none.mp absent q (List.mem_finRange q)

theorem zombie_some (found : zombie t p = some q) : (t q).parent = some p ∧ (t q).state = .ZOMBIE := by
  simpa using List.find?_some found

theorem zombie_none (absent : zombie t p = none) (q : Slot) (child : (t q).parent = some p) : (t q).state ≠ .ZOMBIE := by
  have no := List.find?_eq_none.mp absent q (List.mem_finRange q)
  simpa [child] using no

theorem havekids_false : havekids t p = false ↔ ∀ q, (t q).parent ≠ some p := by
  simp [havekids]

theorem wakeup1_eq (t : Table A) (chan : Option (Chan A)) (q : Slot) :
    wakeup1 t chan q = { t q with
      state := if (t q).state = .SLEEPING ∧ (t q).chan = chan then .RUNNABLE else (t q).state } := by
  rw [wakeup1]
  split <;> rfl

theorem kill_eq (t : Table A) (pid : Int) (q : Slot) :
    (kill t pid).2 q = { t q with
      killed := if find t pid = some q then true else (t q).killed
      state := if find t pid = some q ∧ (t q).state = .SLEEPING then .RUNNABLE else (t q).state } := by
  unfold kill
  split
  · rename_i p found
    by_cases same : q = p
    · simp [same,found]
    · simp [found,same,Ne.symm same]
  · rename_i absent
    simp [absent]

theorem abandon_eq (t : Table A) (x q : Slot) :
    abandon p t x q = { t q with
      parent := if q = x ∧ (t x).parent = some p then some initproc else (t q).parent
      state := if ((t q).state = .SLEEPING ∧ (t q).chan = some (.proc initproc)) ∧ (t x).parent = some p ∧ (t x).state = .ZOMBIE
        then .RUNNABLE else (t q).state } := by
  by_cases child : (t x).parent = some p
  · by_cases here : q = x
    · subst here
      by_cases dead : (t q).state = .ZOMBIE <;> simp [abandon,child,dead,wakeup1]
    · by_cases dead : (t x).state = .ZOMBIE
      · simp only [abandon,child,dead,if_true,wakeup1_eq,Function.update_of_ne here,here,if_false,and_true]
      · simp [abandon,child,dead,here]
  · simp [abandon,child]

/-- What the loop of `exit` does to a part of the table, for each entry. -/
theorem foldl_abandon (l : List Slot) (t : Table A) (q : Slot) :
    l.foldl (abandon p) t q = { t q with
      parent := if q ∈ l ∧ (t q).parent = some p then some initproc else (t q).parent
      state := if ((t q).state = .SLEEPING ∧ (t q).chan = some (.proc initproc)) ∧
        ∃ z ∈ l, (t z).parent = some p ∧ (t z).state = .ZOMBIE then .RUNNABLE else (t q).state } := by
  induction l generalizing t with
  | nil => simp
  | cons x rest ih =>
    have dead (z : Slot) : (abandon p t x z).state = .ZOMBIE ↔ (t z).state = .ZOMBIE := by
      rw [abandon_eq]
      grind
    have child (z : Slot) (other : z ≠ x) : (abandon p t x z).parent = (t z).parent := by simp [abandon_eq,other]
    rw [List.foldl_cons,ih,abandon_eq t x q]
    simp only [Proc.mk.injEq,true_and,and_true]
    refine ⟨?_,by grind⟩
    by_cases sleeps : (t q).state = .SLEEPING ∧ (t q).chan = some (.proc initproc)
    · by_cases first : (t x).parent = some p ∧ (t x).state = .ZOMBIE
      · simp [sleeps,first]
      · -- the others that have exited are the same as before
        have same : (∃ z ∈ rest, (abandon p t x z).parent = some p ∧ (abandon p t x z).state = .ZOMBIE) ↔
            ∃ z ∈ x :: rest, (t z).parent = some p ∧ (t z).state = .ZOMBIE := by
          simp only [List.exists_mem_cons_iff,first,false_or,dead]
          refine exists_congr fun z => and_congr_right fun _ => and_congr_left fun isDead => ?_
          by_cases here : z = x
          · subst here
            have other : ¬ (t z).parent = some p := fun h => first ⟨h,isDead⟩
            simp [abandon_eq,other]
          · rw [child z here]
        simp only [sleeps,first,and_false,if_false,same]
    · simp [sleeps]

theorem exit_other (t : Table A) {p q : Slot} (other : q ≠ p) :
    exit t p q = { t q with
      parent := if (t q).parent = some p then some initproc else (t q).parent
      state := if (t q).state = .SLEEPING ∧ ((t q).chan = (t p).parent.map .proc ∨
        (t q).chan = some (.proc initproc) ∧ ∃ z, (t z).parent = some p ∧ (t z).state = .ZOMBIE)
        then .RUNNABLE else (t q).state } := by
  have dead (z : Slot) : (wakeup1 t ((t p).parent.map .proc) z).state = .ZOMBIE ↔ (t z).state = .ZOMBIE := by
    rw [wakeup1_eq]
    grind
  have parent (z : Slot) : (wakeup1 t ((t p).parent.map .proc) z).parent = (t z).parent := by rw [wakeup1_eq]
  simp only [exit,Function.update_of_ne other,foldl_abandon,List.mem_finRange,true_and,dead,parent]
  rw [wakeup1_eq]
  simp only [Proc.mk.injEq,and_true]
  grind

theorem exit_self (t : Table A) (p : Slot) :
    exit t p p = { t p with
      parent := if (t p).parent = some p then some initproc else (t p).parent
      state := .ZOMBIE } := by
  simp only [exit,Function.update_self,foldl_abandon,List.mem_finRange,true_and]
  rw [wakeup1_eq]

end

inductive Moves (s : State C K A) : Action C K A → State C K A → Prop where
  -- the scheduler of a CPU
  | takes {c : C} {n : C → Nat} (on : (s.cpus c).stack = none) (here : (s.cpus c).sched = .idle) (free : s.table = none) :
      Moves s (.scheduler c) { s.setCpu c { s.cpus c with sched := .scan 0 } with table := some c, ncli := n }
  | skips {c : C} {i : Nat} (on : (s.cpus c).stack = none) (here : (s.cpus c).sched = .scan i) :
      Moves s (.scheduler c) (s.setCpu c { s.cpus c with sched := .scan (i + 1) })
  | rests {c : C} {i : Nat} {n : C → Nat} (on : (s.cpus c).stack = none) (here : (s.cpus c).sched = .scan i) :
      Moves s (.scheduler c) { s.setCpu c { s.cpus c with sched := .idle } with table := none, ncli := n }
  | chooses {c : C} {p : Slot} (on : (s.cpus c).stack = none) (here : (s.cpus c).sched = .scan p)
      (ready : (s.procs p).state = .RUNNABLE) :
      Moves s (.scheduler c) (s.setCpu c { s.cpus c with proc := some p, cr3 := some p, sched := .chosen p })
  | marks {c : C} {p : Slot} (on : (s.cpus c).stack = none) (here : (s.cpus c).sched = .chosen p) :
      Moves s (.scheduler c) ((s.setProc p { s.procs p with state := .RUNNING }).setCpu c { s.cpus c with sched := .marked p })
  | switches {c : C} {p : Slot} (on : (s.cpus c).stack = none) (here : (s.cpus c).sched = .marked p) :
      Moves s (.scheduler c) (s.setCpu c { s.cpus c with stack := some p, sched := .back p })
  | resumes {c : C} {p : Slot} (on : (s.cpus c).stack = none) (here : (s.cpus c).sched = .back p) :
      Moves s (.scheduler c) (s.setCpu c { s.cpus c with proc := none, cr3 := none, sched := .scan (p + 1) })
  -- sections under `ptable.lock` that are over in one step
  | wakes {a : Action C K A} {chan : A} (free : s.table = none)
      (calls : (∃ c, a = .interrupt c chan) ∨ ∃ c p, a = .call c (.wakeup chan) ∧ (s.cpus c).stack = some p ∧ s.pos p = .outside) :
      Moves s a { s with procs := wakeup1 s.procs (some (.addr chan)) }
  | kills {c : C} {p : Slot} {pid : Int} (on : (s.cpus c).stack = some p) (here : s.pos p = .outside) (free : s.table = none) :
      Moves s (.call c (.kill pid)) { s.returns p (kill s.procs pid).1 with procs := (kill s.procs pid).2 }
  | pstats {c : C} {p : Slot} {pid : Int} (on : (s.cpus c).stack = some p) (here : s.pos p = .outside) (free : s.table = none) :
      Moves s (.call c (.pstat pid)) (s.returns p (pstat s.procs pid).1)
  | full {c : C} {p : Slot} (on : (s.cpus c).stack = some p) (here : s.pos p = .outside) (free : s.table = none) :
      Moves s (.call c .fork) { s.returns p (-1) with allocs := s.allocs + 1 }
  | forks {c : C} {p np : Slot} (on : (s.cpus c).stack = some p) (here : s.pos p = .outside) (free : s.table = none)
      (found : (s.procs np).state = .UNUSED) :
      Moves s (.call c .fork)
        { (s.setProc np { s.procs np with state := .EMBRYO, pid := s.nextpid }).goto p (.forkEntry np) with
          nextpid := int32 (s.nextpid + 1)
          allocs := s.allocs + 1
          born := Function.update s.born np s.allocs }
  | starts {c : C} {p np : Slot} {ok : Bool} (on : (s.cpus c).stack = some p) (here : s.pos p = .forkCopy np)
      (free : s.table = none) :
      Moves s (.turn c ok) (((s.setProc np { s.procs np with state := .RUNNABLE }).goto p .outside).returns p (s.procs np).pid)
  -- the other spinlocks
  | acquires {c : C} {p : Slot} {lk : K} {n : C → Nat} (on : (s.cpus c).stack = some p) (here : s.pos p = .outside)
      (free : s.locks lk = none) :
      Moves s (.call c (.acquire lk)) { s with locks := Function.update s.locks lk (some p), ncli := n }
  | releases {c : C} {p : Slot} {lk : K} {n : C → Nat} (on : (s.cpus c).stack = some p) (here : s.pos p = .outside)
      (held : s.locks lk = some p) :
      Moves s (.call c (.release lk)) { s with locks := Function.update s.locks lk none, ncli := n }
  | relocks {c : C} {p : Slot} {lk : K} {ok : Bool} {n : C → Nat} (on : (s.cpus c).stack = some p) (here : s.pos p = .relock lk)
      (free : s.locks lk = none) :
      Moves s (.turn c ok) { s.goto p .outside with locks := Function.update s.locks lk (some p), ncli := n }
  -- the process takes `ptable.lock`
  | enters {a : Action C K A} {c : C} {p : Slot} {pos : Pos K A} {n : C → Nat} (on : (s.cpus c).stack = some p)
      (free : s.table = none)
      (how : s.pos p = .outside ∧ ((∃ chan lk, a = .call c (.sleep chan (some lk)) ∧ pos = .sleepLocked (.addr chan) lk) ∨
          ∃ status, a = .call c (.wait status) ∧ pos = .wait status) ∨
        (s.pos p = .exit ∧ pos = .exiting ∧ ∃ ok, a = .turn c ok) ∨ ∃ place, s.pos p = .unlocked place ∧ pos = .yield place ∧ a = .yield c) :
      Moves s a { s.goto p pos with table := some c, ncli := n }
  -- and gives it up
  | leaves {c : C} {p : Slot} {place : Place K} {ok : Bool} {n : C → Nat} {ret : Slot → Int} (on : (s.cpus c).stack = some p)
      (here : (s.pos p = .forkret ∨ ∃ r, s.pos p = .waited r) ∧ place = .outside ∨ s.pos p = .back (.yield place)) :
      Moves s (.turn c ok) { s.goto p (.unlocked place) with table := none, ncli := n, ret := ret }
  | wakened {c : C} {p : Slot} {lk : K} {ok : Bool} {n : C → Nat} (on : (s.cpus c).stack = some p)
      (here : s.pos p = .back (.sleep lk)) :
      Moves s (.turn c ok) { (s.setProc p { s.procs p with chan := none }).goto p (.relock lk) with table := none, ncli := n }
  -- with `ptable.lock`
  | yields {c : C} {p : Slot} {place : Place K} {ok : Bool} (on : (s.cpus c).stack = some p) (here : s.pos p = .yield place) :
      Moves s (.turn c ok) ((s.setProc p { s.procs p with state := .RUNNABLE }).goto p (.sched (.yield place)))
  | gives {c : C} {p : Slot} {chan : Chan A} {lk : K} {ok : Bool} {n : C → Nat} (on : (s.cpus c).stack = some p)
      (here : s.pos p = .sleepLocked chan lk) (held : s.locks lk = some p) :
      Moves s (.turn c ok) { s.goto p (.sleep chan (.sleep lk)) with locks := Function.update s.locks lk none, ncli := n }
  | sleeps {c : C} {p : Slot} {chan : Chan A} {after : After K} {ok : Bool} (on : (s.cpus c).stack = some p)
      (here : s.pos p = .sleep chan after) :
      Moves s (.turn c ok) ((s.setProc p { s.procs p with chan := some chan, state := .SLEEPING }).goto p (.sched after))
  | swtch {c : C} {p : Slot} {after : After K} {ok : Bool} (on : (s.cpus c).stack = some p) (here : s.pos p = .sched after) :
      Moves s (.turn c ok) ((s.goto p (.back after)).setCpu c { s.cpus c with stack := none })
  | rewaits {c : C} {p : Slot} {status : Bool} {ok : Bool} (on : (s.cpus c).stack = some p)
      (here : s.pos p = .back (.wait status)) :
      Moves s (.turn c ok) ((s.setProc p { s.procs p with chan := none }).goto p (.wait status))
  | dies {c : C} {p : Slot} {ok : Bool} (on : (s.cpus c).stack = some p) (here : s.pos p = .exiting) :
      Moves s (.turn c ok) { ({ s with procs := exit s.procs p } : State C K A).goto p (.sched .exit) with
        exits := ⟨s.born p,(s.procs p).pid,(s.procs p).status⟩ :: s.exits }
  | reaps {c : C} {p q : Slot} {status ok : Bool} (on : (s.cpus c).stack = some p) (here : s.pos p = .wait status)
      (child : (s.procs q).parent = some p) (dead : (s.procs q).state = .ZOMBIE) :
      Moves s (.turn c ok) { ({ s with procs := reap s.procs q } : State C K A).goto p (.waited (s.procs q).pid) with
        reaps := ⟨p,(s.procs q).parent,s.born q,(s.procs q).pid,if status then some (s.procs q).status else none⟩ :: s.reaps }
  | waits {c : C} {p : Slot} {status ok : Bool} (on : (s.cpus c).stack = some p) (here : s.pos p = .wait status)
      (none : zombie s.procs p = none) (childless : havekids s.procs p = false ∨ (s.procs p).killed = true) :
      Moves s (.turn c ok) (s.goto p (.waited (-1)))
  | dozes {c : C} {p : Slot} {status ok : Bool} (on : (s.cpus c).stack = some p) (here : s.pos p = .wait status)
      (none : zombie s.procs p = none) :
      Moves s (.turn c ok) (s.goto p (.sleep (.proc p) (.wait status)))
  -- without a lock
  | exits {c : C} {p : Slot} {status : Int} {image : Image} (on : (s.cpus c).stack = some p) (here : s.pos p = .outside)
      (other : p ≠ initproc) :
      Moves s (.call c (.exit status)) ((s.setProc p { s.procs p with status := status, image := image }).goto p .exit)
  | changes {c : C} {call : Call K A} {p : Slot} {killed : Bool} {image : Image} (on : (s.cpus c).stack = some p)
      (here : s.pos p = .outside) :
      Moves s (.call c call) (s.setProc p { s.procs p with killed := killed, image := image })
  | kstack {c : C} {p np : Slot} {ok : Bool} (on : (s.cpus c).stack = some p) (here : s.pos p = .forkEntry np) :
      Moves s (.turn c ok) ((s.goto np .forkret).goto p (.forkStack np))
  | copies {c : C} {p np : Slot} {ok : Bool} {image : Image} (on : (s.cpus c).stack = some p) (here : s.pos p = .forkStack np) :
      Moves s (.turn c ok) ((s.setProc np { s.procs np with parent := some p, image := image }).goto p (.forkCopy np))
  | fails {c : C} {p np : Slot} {ok : Bool} (on : (s.cpus c).stack = some p)
      (here : s.pos p = .forkEntry np ∨ s.pos p = .forkStack np) :
      Moves s (.turn c ok) (((s.setProc np { s.procs np with state := .UNUSED }).goto p .outside).returns p (-1))

section
variable {s s' : State C K A} {c : C} {p : Slot} {lk : K}

theorem andThen_ok {r : Result C K A} {f : State C K A → State C K A} (taken : State.andThen r f = some (.ok s')) :
    ∃ s₁, r = some (.ok s₁) ∧ s' = f s₁ := by
  rcases r with _ | _ | s₁
  · cases taken
  · cases taken
  · cases taken
    exact ⟨s₁,rfl,rfl⟩

theorem lock_ok (taken : s.lock c = some (.ok s')) : s.table = none ∧ ∃ n, s' = { s with table := some c, ncli := n } := by
  unfold State.lock at taken
  split at taken
  · cases taken
    exact ⟨‹_›,_,rfl⟩
  · split at taken <;> cases taken

theorem unlock_ok (taken : s.unlock c = some (.ok s')) : ∃ n, s' = { s with table := none, ncli := n } := by
  unfold State.unlock at taken
  split at taken
  · cases taken
    exact ⟨_,rfl⟩
  · cases taken

theorem acquire_ok (taken : s.acquire c p lk = some (.ok s')) :
    s.locks lk = none ∧ ∃ n, s' = { s with locks := Function.update s.locks lk (some p), ncli := n } := by
  unfold State.acquire at taken
  split at taken
  · cases taken
    exact ⟨‹_›,_,rfl⟩
  · split at taken <;> cases taken

theorem release_ok (taken : s.release c p lk = some (.ok s')) :
    s.locks lk = some p ∧ ∃ n, s' = { s with locks := Function.update s.locks lk none, ncli := n } := by
  unfold State.release at taken
  split at taken
  · cases taken
    exact ⟨‹_›,_,rfl⟩
  · cases taken

theorem critical_ok {f : State C K A → State C K A} (taken : s.critical f = some (.ok s')) : s.table = none ∧ s' = f s := by
  unfold State.critical at taken
  split at taken
  · cases taken
    exact ⟨‹_›,rfl⟩
  · cases taken

theorem moves_of_scheduler (on : (s.cpus c).stack = none) (taken : s.scheduler c = some (.ok s')) : Moves s (.scheduler c) s' := by
  simp only [State.scheduler] at taken
  split at taken
  case h_1 here =>
    obtain ⟨_,locked,rfl⟩ := andThen_ok taken
    obtain ⟨free,n,rfl⟩ := lock_ok locked
    exact .takes on here free
  case h_2 i here =>
    split at taken
    · split at taken
      · cases taken
        exact .skips on here
      · rename_i ready
        cases taken
        exact .chooses on here (by simpa using ready)
    · obtain ⟨_,unlocked,rfl⟩ := andThen_ok taken
      obtain ⟨n,rfl⟩ := unlock_ok unlocked
      exact .rests on here
  case h_3 p here =>
    cases taken
    exact .marks on here
  case h_4 p here =>
    cases taken
    exact .switches on here
  case h_5 p here =>
    cases taken
    exact .resumes on here

theorem moves_of_call {call : Call K A} (on : (s.cpus c).stack = some p) (here : s.pos p = .outside)
    (taken : s.call c p call = some (.ok s')) : Moves s (.call c call) s' := by
  cases call with
  | acquire lk =>
    obtain ⟨free,n,rfl⟩ := acquire_ok taken
    exact .acquires on here free
  | release lk =>
    obtain ⟨held,n,rfl⟩ := release_ok taken
    exact .releases on here held
  | sleep chan lk =>
    simp only [State.call] at taken
    split at taken
    · cases taken
    · cases lk with
      | none => cases taken
      | some lk =>
        obtain ⟨_,locked,rfl⟩ := andThen_ok taken
        obtain ⟨free,n,rfl⟩ := lock_ok locked
        exact .enters on free (.inl ⟨here,.inl ⟨chan,lk,rfl,rfl⟩⟩)
  | wakeup chan =>
    simp only [State.call] at taken
    obtain ⟨free,rfl⟩ := critical_ok taken
    exact .wakes free (.inr ⟨c,p,rfl,on,here⟩)
  | kill pid =>
    simp only [State.call] at taken
    obtain ⟨free,rfl⟩ := critical_ok taken
    exact .kills on here free
  | pstat pid =>
    simp only [State.call] at taken
    obtain ⟨free,rfl⟩ := critical_ok taken
    exact .pstats on here free
  | fork =>
    simp only [State.call] at taken
    obtain ⟨free,rfl⟩ := critical_ok taken
    unfold State.allocproc
    split
    · exact .full on here free
    · rename_i np found
      exact .forks on here free (unused_some found)
  | exit status =>
    simp only [State.call] at taken
    split at taken
    · cases taken
    · cases taken
      exact .exits on here ‹_›
  | wait status =>
    obtain ⟨_,locked,rfl⟩ := andThen_ok taken
    obtain ⟨free,n,rfl⟩ := lock_ok locked
    exact .enters on free (.inl ⟨here,.inr ⟨status,rfl,rfl⟩⟩)
  | trap =>
    cases taken
    exact .changes on here
  | change image =>
    cases taken
    exact .changes on here

theorem moves_of_turn {ok : Bool} (on : (s.cpus c).stack = some p) (taken : s.turn c p ok = some (.ok s')) :
    Moves s (.turn c ok) s' := by
  simp only [State.turn] at taken
  split at taken
  case h_1 => cases taken
  case h_2 here =>
    obtain ⟨_,unlocked,rfl⟩ := andThen_ok taken
    obtain ⟨n,rfl⟩ := unlock_ok unlocked
    exact .leaves on (.inl ⟨.inl here,rfl⟩)
  case h_3 place here =>
    cases taken
    exact .yields on here
  case h_4 chan lk here =>
    obtain ⟨_,released,rfl⟩ := andThen_ok taken
    obtain ⟨held,n,rfl⟩ := release_ok released
    exact .gives on here held
  case h_5 chan after here =>
    cases taken
    exact .sleeps on here
  case h_6 after here =>
    split at taken
    · cases taken
    · split at taken
      · cases taken
      · split at taken
        · cases taken
        · split at taken
          · cases taken
          · cases taken
            exact .swtch on here
  case h_7 place here =>
    obtain ⟨_,unlocked,rfl⟩ := andThen_ok taken
    obtain ⟨n,rfl⟩ := unlock_ok unlocked
    exact .leaves on (.inr here)
  case h_8 lk here =>
    obtain ⟨_,unlocked,rfl⟩ := andThen_ok taken
    obtain ⟨n,rfl⟩ := unlock_ok unlocked
    exact .wakened on here
  case h_9 status here =>
    cases taken
    exact .rewaits on here
  case h_10 => cases taken
  case h_11 lk here =>
    obtain ⟨_,acquired,rfl⟩ := andThen_ok taken
    obtain ⟨free,n,rfl⟩ := acquire_ok acquired
    exact .relocks on here free
  case h_12 here =>
    obtain ⟨_,locked,rfl⟩ := andThen_ok taken
    obtain ⟨free,n,rfl⟩ := lock_ok locked
    exact .enters on free (.inr (.inl ⟨here,rfl,ok,rfl⟩))
  case h_13 here =>
    cases taken
    exact .dies on here
  case h_14 status here =>
    split at taken
    · rename_i q found
      cases taken
      obtain ⟨child,dead⟩ := zombie_some found
      exact .reaps on here child dead
    · split at taken
      · cases taken
        exact .waits on here ‹_› ‹_›
      · cases taken
        exact .dozes on here ‹_›
  case h_15 r here =>
    obtain ⟨_,unlocked,rfl⟩ := andThen_ok taken
    obtain ⟨n,rfl⟩ := unlock_ok unlocked
    exact .leaves on (.inl ⟨.inr ⟨r,here⟩,rfl⟩)
  case h_16 np here =>
    split at taken
    · cases taken
      exact .kstack on here
    · cases taken
      exact .fails on (.inl here)
  case h_17 np here =>
    split at taken
    · cases taken
      exact .copies on here
    · cases taken
      exact .fails on (.inr here)
  case h_18 np here =>
    obtain ⟨free,rfl⟩ := critical_ok taken
    exact .starts on here free

theorem moves_of_step {a : Action C K A} (taken : step s a = some (.ok s')) : Moves s a s' := by
  cases a with
  | scheduler c =>
    simp only [step] at taken
    split at taken
    · exact moves_of_scheduler ‹_› taken
    · cases taken
  | interrupt c chan =>
    simp only [step] at taken
    obtain ⟨free,rfl⟩ := critical_ok taken
    exact .wakes free (.inl ⟨c,rfl⟩)
  | call c call =>
    simp only [step] at taken
    split at taken
    · cases taken
    · split at taken
      · exact moves_of_call ‹_› ‹_› taken
      · cases taken
  | yield c =>
    simp only [step] at taken
    split at taken
    · cases taken
    · rename_i p on
      split at taken
      · split at taken
        · obtain ⟨_,locked,rfl⟩ := andThen_ok taken
          obtain ⟨free,n,rfl⟩ := lock_ok locked
          exact .enters on free (.inr (.inr ⟨_,‹_›,rfl,rfl⟩))
        · cases taken
      · cases taken
  | turn c ok =>
    simp only [step] at taken
    split at taken
    · cases taken
    · exact moves_of_turn ‹_› taken

end

end Osce.Procs
