import Osce.Vm.Calls

/-!
The calls that make, change and replace address spaces. What `fork` takes before the child can run is in nobody's hands: it
is named next to the pages of the owners until the entry of the child refers to it.
-/
namespace Osce.Vm
open Osce.Lib Prog Function

variable {env : Env} {E : Stop → Prop} {All X : Multiset Nat} {s : Machine} {m m' : Mem} {i x : Nat}

theorem Proc.pages_unmade {p : Proc} (unmade : p.state = .UNUSED ∨ p.state = .EMBRYO) : p.pages m = 0 := if_pos unmade

theorem Good.owned (good : Good All X s) (inside : i < NPROC) (live : (s.proc i).live) :
    Owned All s.mem (s.proc i).pgdir ((s.proc i).kstack ::ₘ (s.others i + X)) := by
  have pages := good.pages
  rw [Machine.held_split inside,Proc.pages_live live.1 live.2,Divided] at pages
  rw [Owned,← pages]
  simp only [Multiset.cons_add,Multiset.add_cons,add_assoc]

theorem Good.setLow (good : Good All X s) {p : Proc} (low : p.live → p.sz < KERNBASE) (j : Nat) (inside : j < NPROC)
    (live : (update s.proc i p j).live) : (update s.proc i p j).sz < KERNBASE := by
  by_cases isI : j = i
  · rw [isI,update_self] at live ⊢
    exact low live
  · rw [update_of_ne isI] at live ⊢
    exact good.low j inside live

/-- A process has a new directory, or its directory has changed, and the others are as they were. -/
theorem Good.of_owned (good : Good All X s) {leak : Multiset Nat} {p : Proc} (inside : i < NPROC) (live : p.live) (low : p.sz < KERNBASE)
    (owned : Owned All m' p.pgdir (leak + p.kstack ::ₘ (s.others i + X))) (kept : Kept (s.others i) s.mem m') :
    Good All (leak + X) { s with mem := m', proc := update s.proc i p } := by
  refine ⟨?_,good.files,good.setLow fun _ => low⟩
  rw [Machine.held_setProc (s := { s with mem := m' }) inside,Machine.others_kept kept,Proc.pages_live live.1 live.2]
  rw [Owned] at owned
  rw [Divided,← owned]
  simp only [Multiset.cons_add,Multiset.add_cons,add_assoc,add_left_comm]

theorem Good.adopt {p : Proc} (good : Good All (p.pages s.mem + X) s) (inside : i < NPROC)
    (unmade : (s.proc i).state = .UNUSED ∨ (s.proc i).state = .EMBRYO) (low : p.live → p.sz < KERNBASE) :
    Good All X { s with proc := update s.proc i p } := by
  refine ⟨?_,good.files,good.setLow low⟩
  have pages := good.pages
  rw [Machine.held_split inside,Proc.pages_unmade unmade,zero_add] at pages
  rw [Machine.held_setProc inside,add_assoc,add_left_comm]
  exact pages

theorem Good.setMem {Y : Multiset Nat} (good : Good All X s) (pages : Divided All m' (s.held + Y)) (kept : Kept s.held s.mem m') :
    Good All Y { s with mem := m' } := by
  refine ⟨?_,good.files,good.low⟩
  rw [Machine.held_kept kept]
  exact pages

/-- What `allocproc` has made: an entry with a kernel stack, which is not yet one of the owners. -/
structure Embryo (All X : Multiset Nat) (s s' : Machine) (np : Nat) : Prop where
  inside : np < NPROC
  unused : (s.proc np).state = .UNUSED
  good : Good All ((s'.proc np).kstack ::ₘ X) s'
  embryo : (s'.proc np).state = .EMBRYO
  others : ∀ j, j ≠ np → s'.proc j = s.proc j
  held : s'.held = s.held
  kpgdir : s'.kpgdir = s.kpgdir

theorem wp_allocproc_found {Q : Option Nat → Machine → Prop} {np : Nat} (low : np < NPROC) (unused : (s.proc np).state = .UNUSED)
    (good : Good All X s) (settled : Settled s) (found : ∀ s', Embryo All X s s' np → Q (some np) s')
    (none : ∀ s', Good All X s' → Settled s' → Fails env s.mem → Q none s') (sleep : Fails env s.mem → env.may false = false → E .sleep) :
    Wp (sysHandle env) E (allocproc_found np) Q s := by
  rw [allocproc_found,wp_bind,wp_proc,wp_bind,wp_setProc,wp_bind,wp_inMem]
  -- the entry has no pages, whatever is stored in it
  have unmade (m' : Mem) (p : Proc) (Y : Multiset Nat) (isUnmade : p.state = .UNUSED ∨ p.state = .EMBRYO)
      (divided : Divided All m' (s.held + Y)) (page : m'.page = s.mem.page) :
      Good All Y { s with mem := m', proc := update s.proc np p } := by
    have here : Good All (p.pages m' + Y) { s with mem := m' } := by
      refine good.setMem ?_ fun x _ => by rw [page]
      rwa [Proc.pages_unmade isUnmade,zero_add]
    refine Good.adopt (s := { s with mem := m' }) here low (.inl unused) fun live => ?_
    rcases isUnmade with isUnused | isEmbryo
    · exact absurd isUnused live.1
    · exact absurd isEmbryo live.2
  refine wp_kalloc_loose good.pages (fun m' k divided page => ?_) (fun m' divided page fails => ?_) sleep
  · show Wp _ _ (ask (.setProc np _) >>= _) _ _
    rw [wp_bind,wp_setProc]
    dsimp only
    rw [update_idem]
    refine found _ ⟨low,unused,?_,?_,fun j other => update_of_ne other ..,?_,rfl⟩
    · dsimp only
      rw [update_self]
      refine unmade m' _ _ (.inr rfl) ?_ page
      rw [Multiset.add_cons]
      exact divided
    · dsimp only
      rw [update_self]
    · rw [Machine.held_sameProc (s := { s with mem := m' }),Machine.held_kept fun x _ => by rw [page]]
      rw [Proc.pages_unmade (.inr rfl),Proc.pages_unmade (.inl unused)]
  · show Wp _ _ (ask (.setProc np _) >>= _) _ _
    rw [wp_bind,wp_setProc]
    dsimp only
    rw [update_idem]
    exact none _ (unmade m' _ _ (.inl rfl) divided page) (settled.setProc (s := { s with mem := m' }) nofun) fails

theorem wp_allocproc_from {Q : Option Nat → Machine → Prop} (entries : List Nat) (inside : ∀ j ∈ entries, j < NPROC)
    (good : Good All X s) (settled : Settled s) (stops : ∀ e, E e) (found : ∀ np s', Embryo All X s s' np → Q (some np) s')
    (none : ∀ s', Good All X s' → Settled s' → Q none s') : Wp (sysHandle env) E (allocproc_from entries) Q s := by
  induction entries with
  | nil => exact none s good settled
  | cons np rest ih =>
    rw [allocproc_from,wp_bind,wp_proc]
    split
    · rename_i unused
      exact wp_allocproc_found (inside np (List.mem_cons_self ..)) unused good settled (found np)
        (fun s' good' settled' _ => none s' good' settled') fun _ _ => stops _
    · exact ih fun j member => inside j (List.mem_cons_of_mem _ member)

theorem wp_fork_files {Q : Unit → Machine → Prop} {ofile : Nat → Option Nat} {np : Nat} (fds : List Nat) (good : Good All X s)
    (stops : ∀ e, E e) (done : ∀ s', Good All X s' → SameProcs s s' → s'.mem = s.mem → Q () s') :
    Wp (sysHandle env) E (fork_files ofile np fds) Q s := by
  induction fds generalizing s with
  | nil => exact done s good (.refl s) rfl
  | cons fd rest ih =>
    rw [fork_files]
    cases ofile fd with
    | none => exact ih good done
    | some f =>
      show Wp _ _ (filedup f >>= _) _ _
      rw [wp_bind]
      refine wp_filedup good stops fun s₁ good₁ same₁ mem₁ => ?_
      rw [wp_bind,wp_proc,wp_bind,wp_setProc]
      obtain ⟨good₂,keep₂⟩ := good₁.sameProc (i := np)
        (p := { s₁.proc np with ofile := update (s₁.proc np).ofile fd (some f) }) ⟨rfl,rfl,rfl,rfl⟩
      exact ih good₂ fun s' good' keep' mem' => done s' good' (((sameProcs_of_eq same₁).trans keep₂).trans keep') (mem'.trans mem₁)

/-- What a call leaves: the pages are divided as before, but for some that are lost. -/
def Accounted (env : Env) (All X : Multiset Nat) (s' : Machine) : Prop :=
  ∃ leak, Good All (leak + X) s' ∧ (env.may true = false → leak = 0) ∧ Settled s'

theorem accounted_all (good : Good All X s) (settled : Settled s) : Accounted env All X s :=
  ⟨0,by rwa [zero_add],fun _ => rfl,settled⟩

theorem Embryo.settled {s' : Machine} {np : Nat} {p : Proc} (embryo : Embryo All X s s' np) (settled : Settled s) (made : p.state ≠ .EMBRYO)
    {s'' : Machine} (rest : ∀ j, j ≠ np → (s''.proc j).state = (s'.proc j).state) (isNp : s''.proc np = p) : Settled s'' := by
  intro j inside
  by_cases isJ : j = np
  · rw [isJ,isNp]
    exact made
  · rw [rest j isJ,embryo.others j isJ]
    exact settled j inside

theorem wp_fork {Q : Option Nat → Machine → Prop} (reg : Region All) (good : Good All X s) (settled : Settled s) (inside : i < NPROC)
    (running : (s.proc i).state = .RUNNABLE) (stops : ∀ e, E e) (done : ∀ r s', Accounted env All X s' → Q r s') :
    Wp (sysHandle env) E (fork i) Q s := by
  rw [fork,wp_bind,allocproc]
  refine wp_allocproc_from _ (fun j member => List.mem_range.mp member) good settled stops (fun np s₁ embryo => ?_)
    fun s' good' settled' => done none s' (accounted_all good' settled')
  have other : i ≠ np := by
    rintro rfl
    rw [embryo.unused] at running
    cases running
  have low : (s₁.proc i).sz < KERNBASE := by
    rw [embryo.others i other]
    exact good.low i inside ⟨by simp [running],by simp [running]⟩
  show Wp _ _ (ask (.proc i) >>= _) _ _
  rw [wp_bind,wp_proc,wp_bind,wp_inMem]
  have good₁ := embryo.good
  refine wp_copyuvm reg low good₁.pages (fun m₂ d leak owned kept lossless _ _ => ?_) (fun m₂ leak divided kept lossless _ => ?_)
    (fun _ _ _ _ => stops _) fun _ _ _ => stops _
  · have keptHeld : Kept s₁.held s₁.mem m₂ := fun x inHeld => kept x (Multiset.mem_add.mpr (.inl inHeld))
    rw [wp_bind,wp_proc]
    show Wp _ _ (ask (.setProc np _) >>= _) _ _
    rw [wp_bind,wp_setProc,wp_bind]
    -- the directory is in nobody's hands until the child can run
    have good₂ : Good All (m₂.tree d + (leak + (s₁.proc np).kstack ::ₘ X)) { s₁ with mem := m₂ } := by
      refine good₁.setMem ?_ keptHeld
      rw [Owned] at owned
      rw [Divided,← owned]
      simp only [add_left_comm]
    generalize child : ({ s₁.proc np with pgdir := d, sz := (s₁.proc i).sz, parent := some i } : Proc) = p
    have made : p.state = .EMBRYO := by rw [← child]; exact embryo.embryo
    have good₃ : Good All (m₂.tree d + (leak + (s₁.proc np).kstack ::ₘ X)) { s₁ with mem := m₂, proc := update s₁.proc np p } := by
      refine Good.adopt (s := { s₁ with mem := m₂ }) ?_ embryo.inside (.inr embryo.embryo) fun live => absurd made live.2
      rw [Proc.pages_unmade (.inr made),zero_add]
      exact good₂
    refine wp_fork_files _ good₃ stops fun s₄ good₄ keep mem₄ => ?_
    have keepNp := keep np
    dsimp only at keepNp mem₄
    rw [update_self,← child] at keepNp
    obtain ⟨state₄,pgdir₄,kstack₄,sz₄⟩ := keepNp
    rw [wp_bind,wp_proc,wp_bind,wp_setProc]
    refine done _ _ ⟨leak,Good.adopt ?_ embryo.inside (.inr (state₄.trans embryo.embryo)) fun _ => ?_,lossless,?_⟩
    · rw [Proc.pages_live (by simp) (by simp)]
      dsimp only
      rw [mem₄,pgdir₄,kstack₄]
      convert good₄ using 1
      simp only [Multiset.cons_add,Multiset.add_cons]
    · dsimp only
      rw [sz₄]
      exact low
    · refine embryo.settled settled (p := { s₄.proc np with state := .RUNNABLE }) (by simp) (fun j isJ => ?_) (update_self ..)
      dsimp only
      rw [update_of_ne isJ,(keep j).1]
      dsimp only
      rw [update_of_ne isJ]
  · have keptHeld : Kept s₁.held s₁.mem m₂ := fun x inHeld => kept x (Multiset.mem_add.mpr (.inl inHeld))
    rw [wp_bind,wp_proc]
    show Wp _ _ (inMem (perform (.kfree (s₁.proc np).kstack)) >>= _) _ _
    rw [wp_bind]
    have held : Machine.held { s₁ with mem := m₂ } = s₁.held := Machine.held_kept keptHeld
    refine wp_kfree_held (s := { s₁ with mem := m₂ }) (X := leak + X) reg ?_ fun m₃ divided₃ => ?_
    · rw [held]
      rw [Divided] at divided ⊢
      rw [← divided]
      simp only [Multiset.add_cons,add_left_comm]
    · have good₃ : Good All (leak + X) { s₁ with mem := m₃ } := ⟨divided₃,good₁.files,good₁.low⟩
      rw [wp_bind,wp_setProc]
      refine done _ _ ⟨leak,Good.adopt (s := { s₁ with mem := m₃ }) ?_ embryo.inside (.inr embryo.embryo) fun live => absurd rfl live.1,lossless,?_⟩
      · rwa [Proc.pages_unmade (.inl rfl),zero_add]
      · refine embryo.settled settled (p := { s₁.proc np with pgdir := 0, kstack := 0, state := .UNUSED }) (by simp) (fun j isJ => ?_)
          (update_self ..)
        dsimp only
        rw [update_of_ne isJ]

theorem live_running (running : (s.proc i).state = .RUNNABLE) : (s.proc i).live := ⟨by rw [running]; nofun,by rw [running]; nofun⟩

theorem wp_sbrk {Q : Int → Machine → Prop} {n : Int} (reg : Region All) (good : Good All X s) (settled : Settled s) (inside : i < NPROC)
    (running : (s.proc i).state = .RUNNABLE) (stops : ∀ e, E e) (done : ∀ r s', Accounted env All X s' → Q r s') :
    Wp (sysHandle env) E (sbrk i n) Q s := by
  have live := live_running running
  rw [sbrk,wp_bind,wp_proc,wp_bind,wp_inMem]
  refine wp_sys_sbrk_owned reg (good.owned inside live) (good.low i inside live) (fun r m' leak owned kept low lossless => ?_) stops
  show Wp _ _ (ask (.setProc i _) >>= _) _ _
  rw [wp_bind,wp_setProc]
  refine done _ _ ⟨leak,good.of_owned inside ?_ low owned ?_,lossless,settled.setProc (s := { s with mem := m' }) ?_⟩
  · exact live
  · exact kept.mono fun x inOthers => Multiset.mem_cons_of_mem (Multiset.mem_add.mpr (.inl inOthers))
  · exact settled i inside

theorem wp_fetchargs {Q : Option (List (List UInt8)) → Machine → Prop} {p : Proc} (uargv : List Nat) (stops : ∀ e, E e)
    (some : ∀ argv, argv.length = uargv.length → (∀ arg ∈ argv, ∃ addr ∈ uargv, fetchstr s.mem p.pgdir p.sz addr = .ok (some arg)) →
      Q (some argv) s) (none : Q none s) : Wp (sysHandle env) E (fetchargs p uargv) Q s := by
  induction uargv generalizing Q with
  | nil => exact some [] rfl fun _ member => by cases member
  | cons addr rest ih =>
    rw [fetchargs,wp_bind]
    show Wp _ _ (.call (S := SysSig) (.fetchstr p.pgdir p.sz addr) .ret) _ _
    rw [wp_call,sysHandle]
    cases fetched : fetchstr s.mem p.pgdir p.sz addr with
    | error e => exact stops e
    | ok r =>
      cases r with
      | none => exact none
      | some arg =>
        show Wp _ _ (fetchargs p rest >>= _) _ _
        rw [wp_bind]
        refine ih (fun argv count fetches => some (arg :: argv) (by simp [count]) fun arg' member => ?_) none
        rcases List.mem_cons.mp member with isArg | isRest
        · rw [isArg]
          exact ⟨addr,List.mem_cons_self ..,fetched⟩
        · obtain ⟨addr',isArgv,fetched'⟩ := fetches arg' isRest
          exact ⟨addr',List.mem_cons_of_mem _ isArgv,fetched'⟩

def ShortArgs (m : Mem) (p : Proc) (uargv : List Nat) : Prop :=
  ∀ addr ∈ uargv, ∀ arg, fetchstr m p.pgdir p.sz addr = .ok (some arg) → arg.length < 2 ^ 32 - DEVSPACE

theorem wp_sys_exec {Q : Bool → Machine → Prop} {file : List UInt8} {uargv : List Nat} (reg : Region All) (good : Good All X s)
    (settled : Settled s) (inside : i < NPROC) (running : (s.proc i).state = .RUNNABLE) (assured : env.may true = false)
    (noWrap : ∀ ph ∈ programs file, Loads ph → ph.vaddr + ph.memsz < 2 ^ 32) (short : ShortArgs s.mem (s.proc i) uargv)
    (stops : ∀ e, E e) (done : ∀ r s', Good All X s' → Settled s' → Q r s') : Wp (sysHandle env) E (sys_exec i file uargv) Q s := by
  have live := live_running running
  rw [sys_exec]
  split
  · exact done false s good settled
  rw [wp_bind,wp_proc,wp_bind]
  refine wp_fetchargs uargv stops (fun argv _ fetches => ?_) (done false s good settled)
  show Wp _ _ (exec_commit i (s.proc i) file argv) _ _
  rw [exec_commit,wp_bind,wp_inMem]
  refine wp_exec reg good.pages assured (fun _ _ _ _ _ _ _ _ => trivial) noWrap (fun _ _ _ _ => stops _) (fun arg member => ?_)
    (fun m₁ image owned low kept => ?_) (fun m₁ divided kept => ?_) fun _ _ => stops _
  · obtain ⟨addr,isArgv,fetched⟩ := fetches arg member
    exact short addr isArgv arg fetched
  · have keptHeld : Kept s.held s.mem m₁ := kept.mono fun x inHeld => Multiset.mem_add.mpr (.inl inHeld)
    have good₁ : Good All (m₁.tree image.pgdir + X) { s with mem := m₁ } := by
      refine good.setMem ?_ keptHeld
      rw [Owned] at owned
      rw [Divided,← owned]
      simp only [add_left_comm]
    have old := good₁.owned inside live
    dsimp only at old
    show Wp _ _ (ask (.setProc i _) >>= _) _ _
    rw [wp_bind,wp_setProc,wp_bind,wp_inMem,switchuvm,if_neg (owned.dir_ne_zero reg),wp_pure,wp_bind,wp_inMem]
    refine wp_freevm reg old fun m₂ divided₂ kept₂ => ?_
    have inTree (x : Nat) (isTree : x ∈ m₁.tree image.pgdir) : m₂.page x = m₁.page x :=
      kept₂ x (Multiset.mem_cons_of_mem (Multiset.mem_add.mpr (.inr (Multiset.mem_add.mpr (.inl isTree)))))
    have sameOthers : Machine.others { s with mem := m₁ } i = s.others i :=
      Machine.others_kept (keptHeld.mono fun x inOthers => by
        rw [Machine.held_split inside]
        exact Multiset.mem_add.mpr (.inr inOthers))
    rw [wp_pure]
    refine done _ _ ?_ (settled.setProc (s := { s with mem := m₂ }) (settled i inside))
    rw [← zero_add X]
    refine good.of_owned inside ?_ low ?_ fun x inOthers => ?_
    · exact live
    · rw [Divided,sameOthers] at divided₂
      rw [Owned,tree_kept inTree,← divided₂]
      simp only [Multiset.add_cons,zero_add,add_left_comm]
    · rw [kept₂ x (Multiset.mem_cons_of_mem (Multiset.mem_add.mpr (.inl (by rw [sameOthers]; exact inOthers))))]
      exact keptHeld x (by rw [Machine.held_split inside]; exact Multiset.mem_add.mpr (.inr inOthers))
  · exact done false _ (good.setMem divided (kept.mono fun x inHeld => Multiset.mem_add.mpr (.inl inHeld))) settled

end Osce.Vm
