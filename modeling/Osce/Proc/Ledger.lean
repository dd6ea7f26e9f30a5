import Osce.Proc.Family

/-!
What is counted and recorded: pids, and the calls of `exit` and `wait`. A process is known
by its number in the order of `allocproc`, which is never used again.
-/
namespace Osce.Procs
open Osce.Lib
open Function (update update_of_ne update_self)
set_option linter.unusedSectionVars false

variable {C K A : Type} [DecidableEq C] [DecidableEq K] [DecidableEq A]

/-- The pids given out so far are below the next one, and processes have different pids. -/
structure Pids (s : State C K A) : Prop where
  next : 0 < s.nextpid ∧ s.nextpid ≤ s.allocs + 1
  below : ∀ q, (s.procs q).pid < s.nextpid
  positive : ∀ q, (s.procs q).state ≠ .UNUSED → 0 < (s.procs q).pid
  distinct : ∀ p q, (s.procs p).state ≠ .UNUSED → (s.procs q).state ≠ .UNUSED → (s.procs p).pid = (s.procs q).pid → p = q

/-- The calls of `exit` and the children found by `wait`: each process exits once, and is
    found once by its parent, with its pid and its status. -/
structure Ledger (s : State C K A) : Prop where
  born : ∀ q, s.born q < s.allocs
  distinct : ∀ p q, (s.procs p).state ≠ .UNUSED → (s.procs q).state ≠ .UNUSED → s.born p = s.born q → p = q
  exits : ∀ x ∈ s.exits, x.born < s.allocs
  once : (s.exits.map Exited.born).Nodup
  alive : ∀ q, (s.procs q).state ≠ .UNUSED → (s.procs q).state ≠ .ZOMBIE → ∀ x ∈ s.exits, x.born ≠ s.born q
  zombie : ∀ q, (s.procs q).state = .ZOMBIE →
    ⟨s.born q,(s.procs q).pid,(s.procs q).status⟩ ∈ s.exits ∧ ∀ r ∈ s.reaps, r.born ≠ s.born q
  single : (s.reaps.map Reaped.born).Nodup
  reaped : ∀ r ∈ s.reaps, r.parent = some r.waiter ∧
    ∃ x ∈ s.exits, x.born = r.born ∧ x.pid = r.pid ∧ ∀ v, r.status = some v → v = x.status

section
variable {s s' : State C K A} {a : Action C K A} {p q np : Slot}

theorem int32_of_small {x : Int} (low : 0 ≤ x) (high : x < 2 ^ 31) : int32 x = x := by
  unfold int32
  omega

theorem Pids.keep (pids : Pids s) (next : s'.nextpid = s.nextpid) (allocs : s.allocs ≤ s'.allocs)
    (entry : ∀ q, (s'.procs q).pid = (s.procs q).pid ∧ ((s'.procs q).state ≠ .UNUSED → (s.procs q).state ≠ .UNUSED) ∨
      (s'.procs q).state = .UNUSED ∧ (s'.procs q).pid = 0) : Pids s' := by
  have used (q : Slot) (isUsed : (s'.procs q).state ≠ .UNUSED) :
      (s'.procs q).pid = (s.procs q).pid ∧ (s.procs q).state ≠ .UNUSED := by
    rcases entry q with ⟨pid,still⟩ | ⟨unused,-⟩
    · exact ⟨pid,still isUsed⟩
    · exact absurd unused isUsed
  refine ⟨?_,?_,?_,?_⟩
  · rw [next]
    exact ⟨pids.next.1,by have := pids.next.2; omega⟩
  · intro q
    rw [next]
    rcases entry q with ⟨pid,-⟩ | ⟨-,zero⟩
    · rw [pid]
      exact pids.below q
    · rw [zero]
      exact pids.next.1
  · intro q isUsed
    rw [(used q isUsed).1]
    exact pids.positive q (used q isUsed).2
  · intro p q first second same
    rw [(used p first).1,(used q second).1] at same
    exact pids.distinct p q (used p first).2 (used q second).2 same

theorem Pids.forks (pids : Pids s) (few : s'.allocs < 2 ^ 31 - 1)
    (procs : s'.procs = update s.procs np { s.procs np with state := .EMBRYO, pid := s.nextpid })
    (next : s'.nextpid = int32 (s.nextpid + 1)) (allocs : s'.allocs = s.allocs + 1) : Pids s' := by
  have bound := pids.next
  have now : s'.nextpid = s.nextpid + 1 := by
    rw [next,int32_of_small]
    · omega
    · omega
  have other {q : Slot} (different : q ≠ np) : s'.procs q = s.procs q := by rw [procs,update_of_ne different]
  have new : (s'.procs np).pid = s.nextpid := by rw [procs,update_self]
  refine ⟨by omega,?_,?_,?_⟩
  · intro q
    by_cases same : q = np
    · rw [same,new]
      omega
    · rw [other same]
      have := pids.below q
      omega
  · intro q used
    by_cases same : q = np
    · rw [same,new]
      exact bound.1
    · rw [other same] at used ⊢
      exact pids.positive q used
  · intro p q first second same
    by_cases isP : p = np
    · by_cases isQ : q = np
      · rw [isP,isQ]
      · rw [isP,new,other isQ] at same
        exact absurd same.symm (ne_of_lt (pids.below q))
    · rw [other isP] at first same
      by_cases isQ : q = np
      · rw [isQ,new] at same
        exact absurd same (ne_of_lt (pids.below p))
      · rw [other isQ] at second same
        exact pids.distinct p q first second same

theorem Pids.step (pids : Pids s) (e : Exclusive s.state s.table s.cpus s.pos) (effect : Effect s a s')
    (few : s'.allocs < 2 ^ 31 - 1) : Pids s' := by
  -- the entry of a `fork` keeps its pid
  have forked {p np : Slot} {pr : Proc A} (child : (s.pos p).child = some np) (procs : s'.procs = update s.procs np pr)
      (pid : pr.pid = (s.procs np).pid) (history : s'.history = s.history) : Pids s' := by
    refine pids.keep (congrArg History.nextpid history) (le_of_eq (congrArg History.allocs history).symm) fun q => .inl ?_
    rw [procs]
    by_cases same : q = np
    · rw [same,update_self]
      refine ⟨pid,fun _ unused => ?_⟩
      cases unused.symm.trans (e.embryo p np child).1
    · rw [update_of_ne same]
      exact ⟨rfl,id⟩
  cases effect with
  | quiet quiet =>
    refine pids.keep (congrArg History.nextpid quiet.history) (le_of_eq (congrArg History.allocs quiet.history).symm) fun q => .inl ?_
    exact ⟨(quiet.entry q).pid,mt ((quiet.entry q).dead not_live_unused).mpr⟩
  | full procs pos history =>
    refine pids.keep (congrArg History.nextpid history) ?_ fun q => .inl (by rw [procs]; exact ⟨rfl,id⟩)
    have more : s'.allocs = s.allocs + 1 := congrArg History.allocs history
    omega
  | forks p np here found procs pos history =>
    exact pids.forks few procs (congrArg History.nextpid history) (congrArg History.allocs history)
  | copies p np image here procs pos history => exact forked (p := p) (by rw [here]; rfl) procs rfl history
  | fails p np here procs pos history =>
    exact forked (p := p) (by rcases here with here | here <;> rw [here] <;> rfl) procs rfl history
  | starts p np here procs pos history => exact forked (p := p) (by rw [here]; rfl) procs rfl history
  | dies p here procs pos history =>
    refine pids.keep (congrArg History.nextpid history) (le_of_eq (congrArg History.allocs history).symm) fun q => .inl ?_
    rw [procs]
    by_cases same : q = p
    · obtain ⟨c,on⟩ := e.on_stack (p := p) (by rw [here]; exact nofun) (by rw [here]; exact nofun)
      have runs := (e.of_stack on).1
      rw [here] at runs
      rw [same,exit_self]
      exact ⟨rfl,fun _ unused => by cases unused.symm.trans runs⟩
    · exact ⟨by rw [exit_other _ same],mt (exit_dead _ same not_live_unused).mpr⟩
  | reaps p q status here child dead procs pos history =>
    refine pids.keep (congrArg History.nextpid history) (le_of_eq (congrArg History.allocs history).symm) fun r => ?_
    rw [procs,reap]
    by_cases same : r = q
    · rw [same,update_self]
      exact .inr ⟨rfl,rfl⟩
    · rw [update_of_ne same]
      exact .inl ⟨rfl,id⟩

/-- Nobody exits and nobody is found, and processes that have exited keep pid and status. -/
theorem Ledger.keep (ledger : Ledger s) (allocs : s.allocs ≤ s'.allocs) (born : s'.born = s.born) (exits : s'.exits = s.exits)
    (reaps : s'.reaps = s.reaps)
    (entry : ∀ q, ((s'.procs q).state ≠ .UNUSED → (s.procs q).state ≠ .UNUSED) ∧
      ((s'.procs q).state = .ZOMBIE ↔ (s.procs q).state = .ZOMBIE) ∧
      ((s.procs q).state = .ZOMBIE → (s'.procs q).pid = (s.procs q).pid ∧ (s'.procs q).status = (s.procs q).status)) :
    Ledger s' := by
  refine ⟨?_,?_,?_,?_,?_,?_,?_,?_⟩
  · intro q
    rw [born]
    exact Nat.lt_of_lt_of_le (ledger.born q) allocs
  · intro p q first second
    rw [born]
    exact ledger.distinct p q ((entry p).1 first) ((entry q).1 second)
  · intro x member
    rw [exits] at member
    exact Nat.lt_of_lt_of_le (ledger.exits x member) allocs
  · rw [exits]
    exact ledger.once
  · intro q used lives
    rw [exits,born]
    exact ledger.alive q ((entry q).1 used) (mt (entry q).2.1.mpr lives)
  · intro q dead
    have was := (entry q).2.1.mp dead
    obtain ⟨pid,status⟩ := (entry q).2.2 was
    rw [exits,reaps,born,pid,status]
    exact ledger.zombie q was
  · rw [reaps]
    exact ledger.single
  · rw [reaps,exits]
    exact ledger.reaped

theorem Ledger.forks {pr : Proc A} (ledger : Ledger s) (embryo : pr.state = .EMBRYO)
    (procs : s'.procs = update s.procs np pr)
    (history : s'.history = { s.history with
      nextpid := int32 (s.nextpid + 1), allocs := s.allocs + 1, born := update s.born np s.allocs }) : Ledger s' := by
  have allocs : s'.allocs = s.allocs + 1 := congrArg History.allocs history
  have exits : s'.exits = s.exits := congrArg History.exits history
  have reaps : s'.reaps = s.reaps := congrArg History.reaps history
  have bornAll : s'.born = update s.born np s.allocs := congrArg History.born history
  have new : s'.born np = s.allocs := by rw [bornAll,update_self]
  have newState : (s'.procs np).state = .EMBRYO := by rw [procs,update_self,embryo]
  have old {q : Slot} (other : q ≠ np) : s'.born q = s.born q ∧ s'.procs q = s.procs q := by
    rw [bornAll,procs,update_of_ne other,update_of_ne other]
    exact ⟨rfl,rfl⟩
  refine ⟨?_,?_,?_,?_,?_,?_,?_,?_⟩
  · intro q
    by_cases same : q = np
    · rw [same,new]
      omega
    · rw [(old same).1]
      have := ledger.born q
      omega
  · intro p q first second same
    by_cases isP : p = np
    · by_cases isQ : q = np
      · rw [isP,isQ]
      · rw [isP,new,(old isQ).1] at same
        exact absurd same.symm (ne_of_lt (ledger.born q))
    · by_cases isQ : q = np
      · rw [isQ,new,(old isP).1] at same
        exact absurd same (ne_of_lt (ledger.born p))
      · rw [(old isP).1,(old isQ).1] at same
        rw [(old isP).2] at first
        rw [(old isQ).2] at second
        exact ledger.distinct p q first second same
  · intro x member
    rw [exits] at member
    have := ledger.exits x member
    omega
  · rw [exits]
    exact ledger.once
  · intro q used lives x member
    rw [exits] at member
    by_cases same : q = np
    · rw [same,new]
      exact ne_of_lt (ledger.exits x member)
    · rw [(old same).2] at used lives
      rw [(old same).1]
      exact ledger.alive q used lives x member
  · intro q dead
    have other : q ≠ np := by
      rintro rfl
      cases newState.symm.trans dead
    rw [(old other).2] at dead ⊢
    rw [exits,reaps,(old other).1]
    exact ledger.zombie q dead
  · rw [reaps]
    exact ledger.single
  · rw [reaps,exits]
    exact ledger.reaped

theorem Ledger.dies (ledger : Ledger s) (runs : (s.procs p).state = .RUNNING) (procs : s'.procs = exit s.procs p)
    (history : s'.history = { s.history with exits := ⟨s.born p,(s.procs p).pid,(s.procs p).status⟩ :: s.exits }) :
    Ledger s' := by
  have allocs : s'.allocs = s.allocs := congrArg History.allocs history
  have exits : s'.exits = ⟨s.born p,(s.procs p).pid,(s.procs p).status⟩ :: s.exits := congrArg History.exits history
  have reaps : s'.reaps = s.reaps := congrArg History.reaps history
  have born : s'.born = s.born := congrArg History.born history
  have isUsed : (s.procs p).state ≠ .UNUSED := by rw [runs]; exact nofun
  have fresh := ledger.alive p isUsed (by rw [runs]; exact nofun)
  have used {q : Slot} (used : (s'.procs q).state ≠ .UNUSED) : (s.procs q).state ≠ .UNUSED := by
    by_cases same : q = p
    · rwa [same]
    · rw [procs,ne_eq,exit_dead _ same not_live_unused] at used
      exact used
  refine ⟨?_,?_,?_,?_,?_,?_,?_,?_⟩
  · rw [born,allocs]
    exact ledger.born
  · intro q r first second
    rw [born]
    exact ledger.distinct q r (used first) (used second)
  · rw [exits,allocs]
    intro x member
    rcases List.mem_cons.mp member with rfl | old
    · exact ledger.born p
    · exact ledger.exits x old
  · rw [exits,List.map_cons,List.nodup_cons]
    refine ⟨?_,ledger.once⟩
    intro member
    obtain ⟨x,old,same⟩ := List.mem_map.mp member
    exact fresh x old same
  · intro q isUsed' lives x member
    have other : q ≠ p := by
      rintro rfl
      rw [procs,exit_self] at lives
      exact lives rfl
    rw [exits] at member
    rw [born]
    rcases List.mem_cons.mp member with rfl | old
    · intro same
      exact other (ledger.distinct p q isUsed (used isUsed') same).symm
    · rw [procs,ne_eq,exit_dead _ other not_live_zombie] at lives
      exact ledger.alive q (used isUsed') lives x old
  · intro q dead
    rw [exits,reaps,born]
    by_cases same : q = p
    · rw [same,procs,exit_self]
      refine ⟨List.mem_cons_self,fun r member => ?_⟩
      -- whoever was found before has exited before
      obtain ⟨-,x,old,is,-⟩ := ledger.reaped r member
      rw [← is]
      exact fresh x old
    · rw [procs,exit_dead _ same not_live_zombie] at dead
      rw [procs,exit_other _ same]
      obtain ⟨member,unfound⟩ := ledger.zombie q dead
      exact ⟨List.mem_cons_of_mem _ member,unfound⟩
  · rw [reaps]
    exact ledger.single
  · rw [reaps,exits]
    intro r member
    obtain ⟨isParent,x,old,facts⟩ := ledger.reaped r member
    exact ⟨isParent,x,List.mem_cons_of_mem _ old,facts⟩

theorem Ledger.reaps {status : Bool} (ledger : Ledger s) (child : (s.procs q).parent = some p)
    (dead : (s.procs q).state = .ZOMBIE) (procs : s'.procs = reap s.procs q)
    (history : s'.history = { s.history with reaps :=
      ⟨p,(s.procs q).parent,s.born q,(s.procs q).pid,if status then some (s.procs q).status else none⟩ :: s.reaps }) :
    Ledger s' := by
  have allocs : s'.allocs = s.allocs := congrArg History.allocs history
  have exits : s'.exits = s.exits := congrArg History.exits history
  have reaps : s'.reaps = ⟨p,(s.procs q).parent,s.born q,(s.procs q).pid,if status then some (s.procs q).status else none⟩ :: s.reaps :=
    congrArg History.reaps history
  have born : s'.born = s.born := congrArg History.born history
  have isUsed : (s.procs q).state ≠ .UNUSED := by rw [dead]; exact nofun
  obtain ⟨called,unfound⟩ := ledger.zombie q dead
  have used {r : Slot} (used : (s'.procs r).state ≠ .UNUSED) : r ≠ q ∧ s'.procs r = s.procs r := by
    rw [procs,reap] at used ⊢
    by_cases same : r = q
    · rw [same,update_self] at used
      exact absurd rfl used
    · exact ⟨same,update_of_ne same _ _⟩
  refine ⟨?_,?_,?_,?_,?_,?_,?_,?_⟩
  · rw [born,allocs]
    exact ledger.born
  · intro r x first second
    rw [born]
    refine ledger.distinct r x ?_ ?_
    · rwa [← (used first).2]
    · rwa [← (used second).2]
  · rw [exits,allocs]
    exact ledger.exits
  · rw [exits]
    exact ledger.once
  · intro r isUsed' lives
    have same := (used isUsed').2
    rw [same] at isUsed' lives
    rw [exits,born]
    exact ledger.alive r isUsed' lives
  · intro r isDead
    obtain ⟨other,same⟩ := used (r := r) (by rw [isDead]; exact nofun)
    rw [same] at isDead ⊢
    rw [exits,reaps,born]
    obtain ⟨member,before⟩ := ledger.zombie r isDead
    refine ⟨member,fun x found => ?_⟩
    rcases List.mem_cons.mp found with rfl | old
    · intro same
      exact other (ledger.distinct q r isUsed (by rw [isDead]; exact nofun) same).symm
    · exact before x old
  · rw [reaps,List.map_cons,List.nodup_cons]
    refine ⟨?_,ledger.single⟩
    intro member
    obtain ⟨r,old,same⟩ := List.mem_map.mp member
    exact unfound r old same
  · rw [reaps,exits]
    intro r member
    rcases List.mem_cons.mp member with rfl | old
    · refine ⟨child,_,called,rfl,rfl,fun v stored => ?_⟩
      cases status with
      | true => exact (Option.some.inj stored).symm
      | false => cases stored
    · exact ledger.reaped r old

theorem Ledger.step (ledger : Ledger s) (e : Exclusive s.state s.table s.cpus s.pos) (effect : Effect s a s') : Ledger s' := by
  -- the entry of a `fork` is no zombie, before and after
  have forked {p np : Slot} {pr : Proc A} (child : (s.pos p).child = some np) (procs : s'.procs = update s.procs np pr)
      (alive : pr.state ≠ .ZOMBIE) (history : s'.history = s.history) : Ledger s' := by
    refine ledger.keep (le_of_eq (congrArg History.allocs history).symm) (congrArg History.born history)
      (congrArg History.exits history) (congrArg History.reaps history) fun q => ?_
    rw [procs]
    by_cases same : q = np
    · have isEmbryo : (s.procs np).state = .EMBRYO := (e.embryo p np child).1
      rw [same,update_self,isEmbryo]
      exact ⟨fun _ => nofun,⟨fun dead => absurd dead alive,nofun⟩,nofun⟩
    · rw [update_of_ne same]
      exact ⟨id,Iff.rfl,fun _ => ⟨rfl,rfl⟩⟩
  cases effect with
  | quiet quiet =>
    refine ledger.keep (le_of_eq (congrArg History.allocs quiet.history).symm) (congrArg History.born quiet.history)
      (congrArg History.exits quiet.history) (congrArg History.reaps quiet.history) fun q => ?_
    have entry := quiet.entry q
    refine ⟨mt (entry.dead not_live_unused).mpr,entry.dead not_live_zombie,fun dead => ⟨entry.pid,?_⟩⟩
    refine entry.status.resolve_right fun live => ?_
    rw [dead] at live
    exact not_live_zombie live
  | full procs pos history =>
    have more : s'.allocs = s.allocs + 1 := congrArg History.allocs history
    refine ledger.keep (by omega) (congrArg History.born history) (congrArg History.exits history)
      (congrArg History.reaps history) fun q => ?_
    rw [procs]
    exact ⟨id,Iff.rfl,fun _ => ⟨rfl,rfl⟩⟩
  | forks p np here found procs pos history => exact ledger.forks rfl procs history
  | copies p np image here procs pos history =>
    have child : (s.pos p).child = some np := by rw [here]; rfl
    refine forked child procs ?_ history
    rw [show (s.procs np).state = .EMBRYO from (e.embryo p np child).1]
    exact nofun
  | fails p np here procs pos history =>
    exact forked (p := p) (by rcases here with here | here <;> rw [here] <;> rfl) procs nofun history
  | starts p np here procs pos history => exact forked (p := p) (by rw [here]; rfl) procs nofun history
  | dies p here procs pos history =>
    obtain ⟨c,on⟩ := e.on_stack (p := p) (by rw [here]; exact nofun) (by rw [here]; exact nofun)
    have runs := (e.of_stack on).1
    rw [here] at runs
    exact ledger.dies runs procs history
  | reaps p q status here child dead procs pos history => exact ledger.reaps child dead procs history

theorem Pids.init (image : Slot → Image) : Pids (State.init C K A image) := by
  have pid (q : Slot) : q = initproc ∧ ((State.init C K A image).procs q).pid = 1 ∨
      ((State.init C K A image).procs q).state = .UNUSED ∧ ((State.init C K A image).procs q).pid = 0 := by
    simp only [State.init]
    split
    · exact .inl ⟨‹_›,rfl⟩
    · exact .inr ⟨rfl,rfl⟩
  have used (q : Slot) (isUsed : ((State.init C K A image).procs q).state ≠ .UNUSED) : q = initproc := by
    rcases pid q with ⟨isInit,-⟩ | ⟨unused,-⟩
    · exact isInit
    · exact absurd unused isUsed
  refine ⟨⟨(by decide : (0 : Int) < 2),(by decide : (2 : Int) ≤ (1 : Nat) + 1)⟩,?_,?_,?_⟩
  · intro q
    rcases pid q with ⟨-,one⟩ | ⟨-,zero⟩
    · rw [one]
      exact (by decide : (1 : Int) < 2)
    · rw [zero]
      exact (by decide : (0 : Int) < 2)
  · intro q isUsed
    rw [used q isUsed]
    exact (by decide : (0 : Int) < 1)
  · intro p q first second _
    rw [used p first,used q second]

theorem Ledger.init (image : Slot → Image) : Ledger (State.init C K A image) := by
  have used (q : Slot) (isUsed : ((State.init C K A image).procs q).state ≠ .UNUSED) : q = initproc := by
    by_contra notInit
    simp [State.init,notInit] at isUsed
  refine ⟨fun _ => Nat.one_pos,?_,by simp [State.init],List.nodup_nil,by simp [State.init],?_,List.nodup_nil,by simp [State.init]⟩
  · intro p q first second _
    rw [used p first,used q second]
  · intro q dead
    have isInit := used q (by simp [dead])
    rw [isInit] at dead
    cases dead

theorem Effect.allocs_le (effect : Effect s a s') : s.allocs ≤ s'.allocs := by
  cases effect with
  | quiet quiet => exact le_of_eq (congrArg History.allocs quiet.history).symm
  | full procs pos history => exact Nat.le_of_lt (Nat.lt_of_succ_le (le_of_eq (congrArg History.allocs history).symm))
  | forks p np here found procs pos history =>
    exact Nat.le_of_lt (Nat.lt_of_succ_le (le_of_eq (congrArg History.allocs history).symm))
  | copies p np image here procs pos history => exact le_of_eq (congrArg History.allocs history).symm
  | fails p np here procs pos history => exact le_of_eq (congrArg History.allocs history).symm
  | starts p np here procs pos history => exact le_of_eq (congrArg History.allocs history).symm
  | dies p here procs pos history => exact le_of_eq (congrArg History.allocs history).symm
  | reaps p q status here child dead procs pos history => exact le_of_eq (congrArg History.allocs history).symm

theorem Reachable.effect {image : Slot → Image} (reachable : Reachable image s) (taken : step s a = some (.ok s')) :
    Effect s a s' := (moves_of_step taken).effect reachable.exclusive

theorem Reachable.pids {image : Slot → Image} (reachable : Reachable image s) (few : s.allocs < 2 ^ 31 - 1) : Pids s := by
  refine Steps.Reachable.invariant (I := fun s => s.allocs < 2 ^ 31 - 1 → Pids s) reachable (fun _ => Pids.init image)
    (fun t b t' before pids _ taken fewer => ?_) few
  have effect := Reachable.effect before taken
  exact (pids (Nat.lt_of_le_of_lt effect.allocs_le fewer)).step (Reachable.exclusive before) effect fewer

theorem Reachable.ledger {image : Slot → Image} (reachable : Reachable image s) : Ledger s :=
  Steps.Reachable.invariant (I := Ledger) reachable (Ledger.init image)
    fun _ _ _ before ledger _ taken => ledger.step (Reachable.exclusive before) (Reachable.effect before taken)

/-- From the call of `exit` on, the status stays, until it is recorded. -/
def State.Exiting (s : State C K A) (p : Slot) (x : Exited) : Prop :=
  (s.pos p).Exits ∧ x = ⟨s.born p,(s.procs p).pid,(s.procs p).status⟩ ∨ ¬ (s.pos p).Exits ∧ x ∈ s.exits

theorem Pos.exits_of_place {pos : Pos K A} (here : pos.place = some .exit) : pos.Exits := by
  cases pos with
  | sched after => cases after <;> cases here; exact trivial
  | back after => cases after <;> cases here; exact trivial
  | _ => cases here; try exact trivial

theorem Pos.Exits.place {pos : Pos K A} (exits : pos.Exits) : pos = .exiting ∨ pos.place = some .exit := by
  unfold Pos.Exits at exits
  split at exits
  · exact .inl rfl
  · exact .inr rfl
  · exact .inr rfl
  · exact .inr rfl
  · exact .inr rfl
  · exact exits.elim

theorem State.Exiting.step {x : Exited} (e : Exclusive s.state s.table s.cpus s.pos) (inside : (s.pos p).Exits)
    (exiting : s.Exiting p x) (taken : Procs.step s a = some (.ok s')) : s'.Exiting p x := by
  have is : x = ⟨s.born p,(s.procs p).pid,(s.procs p).status⟩ := by
    rcases exiting with ⟨-,is⟩ | ⟨out,-⟩
    · exact is
    · exact absurd inside out
  rcases inside.place with here | here
  · obtain ⟨c,on⟩ := e.on_stack (p := p) (by simp [here]) (by simp [here])
    have runs : s.state p = .RUNNING := by rw [(e.of_stack on).1,here]; rfl
    rcases acts_or s a p with ⟨d,acts,there⟩ | other
    · obtain ⟨ok,turn⟩ := turn_of_acts taken acts there (by rw [here]; exact trivial)
      simp only [State.turn,here] at turn
      cases turn
      refine .inr ⟨by simp [State.goto,Pos.Exits],?_⟩
      rw [is]
      exact List.mem_cons_self
    · have stands := (moves_of_step taken).stands e (.inr (.inr runs)) other
      refine .inl ⟨by rwa [stands.pos],?_⟩
      rw [stands.born,stands.pid,stands.status]
      exact is
  · rcases place_step e here (by simp) taken with ⟨here,c,ok,on,turn⟩ | ⟨still,born,-,pid,status⟩
    · simp only [State.turn,here] at turn
      obtain ⟨_,locked,rfl⟩ := andThen_ok turn
      obtain ⟨free,n,rfl⟩ := lock_ok locked
      exact .inl ⟨by simp [State.goto,Pos.Exits],is⟩
    · refine .inl ⟨Pos.exits_of_place still,?_⟩
      rw [born,pid,status]
      exact is

end

/-- Processes have different pids. A process that calls `exit` is recorded with the status of the
    call, and found at most once by a `wait`, of its parent at that time, which returns its
    pid and stores its status. Every process but the first has a live parent. A `wait` that
    does not find a child returns -1 only without children or for a killed process, and
    nobody sleeps in it while a child has exited. -/
theorem exit_wait_protocol {image : Slot → Image} {s : State C K A} (reachable : Reachable image s) :
    (s.allocs < 2 ^ 31 - 1 → (∀ p q, (s.procs p).state ≠ .UNUSED → (s.procs q).state ≠ .UNUSED →
      (s.procs p).pid = (s.procs q).pid → p = q) ∧ ∀ p, (s.procs p).state ≠ .UNUSED → 0 < (s.procs p).pid) ∧
    (∀ c p v s₁ s₂, (s.cpus c).stack = some p → step s (.call c (.exit v)) = some (.ok s₁) →
      Steps.Reachable step (fun t _ => (t.pos p).Exits) s₁ s₂ → ¬ (s₂.pos p).Exits → ⟨s.born p,(s.procs p).pid,v⟩ ∈ s₂.exits) ∧
    ((s.exits.map Exited.born).Nodup ∧ (s.reaps.map Reaped.born).Nodup ∧
      ∀ r ∈ s.reaps, r.parent = some r.waiter ∧
        ∃ x ∈ s.exits, x.born = r.born ∧ x.pid = r.pid ∧ ∀ v, r.status = some v → v = x.status) ∧
    (∀ c p status ok s', (s.cpus c).stack = some p → s.pos p = .wait status → step s (.turn c ok) = some (.ok s') →
      (∃ q, (s.procs q).parent = some p ∧ (s.procs q).state = .ZOMBIE ∧ s'.pos p = .waited (s.procs q).pid ∧
        ∃ x ∈ s.exits, x.born = s.born q ∧ x.pid = (s.procs q).pid ∧
          s'.reaps = ⟨p,some p,x.born,x.pid,if status then some x.status else none⟩ :: s.reaps) ∨
      s'.reaps = s.reaps ∧ (s'.pos p = .sleep (.proc p) (.wait status) ∨
        s'.pos p = .waited (-1) ∧ ((∀ q, (s.procs q).parent ≠ some p) ∨ (s.procs p).killed = true))) ∧
    (∀ c p r ok s', (s.cpus c).stack = some p → s.pos p = .waited r → step s (.turn c ok) = some (.ok s') →
      s'.pos p = .outside ∧ s'.ret p = r) ∧
    (∀ q, q ≠ initproc → (s.procs q).state ≠ .UNUSED → (s.procs q).state ≠ .EMBRYO →
      ∃ p, (s.procs q).parent = some p ∧ (s.procs p).state ≠ .UNUSED ∧ (s.procs p).state ≠ .ZOMBIE) ∧
    (s.table = none → ∀ p q, (s.procs p).state = .SLEEPING → (s.procs p).chan = some (.proc p) →
      (s.procs q).parent = some p → (s.procs q).state ≠ .ZOMBIE) := by
  have kin := reachable.kin
  have ledger := reachable.ledger
  refine ⟨fun few => ⟨(reachable.pids few).distinct,(reachable.pids few).positive⟩,?_,⟨ledger.once,ledger.single,ledger.reaped⟩,?_,?_,?_,?_⟩
  · intro c p v s₁ s₂ on called path left
    have first : s₁.Exiting p ⟨s.born p,(s.procs p).pid,v⟩ := by
      simp only [step,on] at called
      split at called
      · simp only [State.call] at called
        split at called
        · cases called
        · cases called
          exact .inl ⟨by simp [State.goto,Pos.Exits],by simp [State.goto,State.setProc]⟩
      · cases called
    have last := Steps.Reachable.invariant
      (I := fun t => Exclusive t.state t.table t.cpus t.pos ∧ t.Exiting p ⟨s.born p,(s.procs p).pid,v⟩) path
      ⟨reachable.exclusive.step (moves_of_step called),first⟩ fun t b t' _ before inside taken =>
        ⟨before.1.step (moves_of_step taken),before.2.step before.1 inside taken⟩
    rcases last.2 with ⟨inside,-⟩ | ⟨-,recorded⟩
    · exact absurd inside left
    · exact recorded
  · intro c p status ok s' on here taken
    simp only [step,on,State.turn,here] at taken
    split at taken
    · rename_i q found
      cases taken
      obtain ⟨child,dead⟩ := zombie_some found
      refine .inl ⟨q,child,dead,update_self _ _ _,_,(ledger.zombie q dead).1,rfl,rfl,?_⟩
      simp only [child]
    · split at taken
      · rename_i none alone
        cases taken
        exact .inr ⟨rfl,.inr ⟨update_self _ _ _,alone.imp_left havekids_false.mp⟩⟩
      · cases taken
        exact .inr ⟨rfl,.inl (update_self _ _ _)⟩
  · intro c p r ok s' on here taken
    simp only [step,on,State.turn,here] at taken
    obtain ⟨_,unlocked,rfl⟩ := andThen_ok taken
    exact ⟨update_self _ _ _,update_self _ _ _⟩
  · intro q notInit used grown
    obtain ⟨p,isParent,-,live⟩ := kin.parent q notInit used grown
    refine ⟨p,isParent,?_,?_⟩
    · intro unused
      exact not_live_unused (unused ▸ live)
    · intro dead
      exact not_live_zombie (dead ▸ live)
  · intro _ p q asleep set
    exact kin.dozes p (.inr ⟨asleep,set⟩) q

theorem exit_wait_protocol_seven : ∃ s, after (waiting ++ [.turn false true]) = some s ∧
    s.reaps = [⟨initproc,some initproc,1,2,some 7⟩] ∧ ∃ x ∈ s.exits, x.born = 1 ∧ x.pid = 2 ∧ x.status = 7 := by
  have facts : (after (waiting ++ [.turn false true])).any
      (fun s => s.reaps = [⟨initproc,some initproc,1,2,some 7⟩]) = true := by decide +kernel
  obtain ⟨s,run,holds⟩ := (Option.any_eq_true _ _).mp facts
  have found := of_decide_eq_true holds
  obtain ⟨-,-,⟨-,-,each⟩,-⟩ := exit_wait_protocol (reachable_after run)
  obtain ⟨-,x,member,born,pid,status⟩ := each _ (by rw [found]; exact List.mem_cons_self)
  exact ⟨s,run,found,x,member,born,pid,(status 7 rfl).symm⟩

end Osce.Procs
