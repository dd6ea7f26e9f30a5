import Osce.Vm.Owners

/-!
What each call does to the pages of the machine: whatever fails on the way, the pages stay divided among the free list, the
owners and those that have been lost, and none is lost as long as `walkpgdir` finds a page whenever it needs one.
`Good` is the division together with what keeps a pipe from being closed twice: each open end belongs to one file.
-/
namespace Osce.Vm
open Osce.Lib Prog Function Multiset

variable {env : Env} {E : Stop → Prop} {All X : Multiset Nat} {s : Machine} {m : Mem} {i x : Nat}

theorem wp_inMem {α : Type} {p : VmProg α} {Q : α → Machine → Prop} :
    Wp (sysHandle env) E (inMem p) Q s ↔ Wp (checked (fun _ _ _ _ => True) env) E p (fun a m => Q a { s with mem := m }) s.mem := by
  rw [checked_true]
  induction p generalizing s with
  | ret a => exact Iff.rfl
  | call op next ih =>
    rw [wp_call]
    show Wp _ _ (.call (S := SysSig) (.vm op) fun a => inMem (next a)) _ _ ↔ _
    have step : sysHandle env (.vm op) s = onMem s (handle env op s.mem) := rfl
    rw [wp_call,step]
    cases handle env op s.mem with
    | ok r => exact ih r.1
    | error e => exact Iff.rfl

section
variable {Q : Unit → Machine → Prop}

theorem wp_proc {Q : Proc → Machine → Prop} : Wp (sysHandle env) E (ask (.proc i)) Q s ↔ Q (s.proc i) s := Iff.rfl

theorem wp_setProc {p : Proc} : Wp (sysHandle env) E (ask (.setProc i p)) Q s ↔ Q () { s with proc := update s.proc i p } := Iff.rfl

theorem wp_file {Q : File → Machine → Prop} : Wp (sysHandle env) E (ask (.file i)) Q s ↔ Q (s.file i) s := Iff.rfl

theorem wp_setFile {new : File} :
    Wp (sysHandle env) E (ask (.setFile i new)) Q s ↔ Q () { s with file := update s.file i new } := Iff.rfl

theorem wp_pipe {Q : Pipe → Machine → Prop} : Wp (sysHandle env) E (ask (.pipe x)) Q s ↔ Q (s.pipe x) s := Iff.rfl

theorem wp_setPipe {new : Pipe} :
    Wp (sysHandle env) E (ask (.setPipe x new)) Q s ↔ Q () { s with pipe := update s.pipe x new } := Iff.rfl

theorem wp_stop {α : Type} {Q : α → Machine → Prop} {message : String} : Wp (sysHandle env) E (stop message) Q s ↔ E (.panic message) := Iff.rfl

end

def Pipe.has (p : Pipe) (writable : Bool) : Bool := if writable then p.writeopen else p.readopen

/-- A file that is not used has no pipe, the file of a pipe has an end that is open, and it is the only one. -/
structure Files (file : Nat → File) (pipe : Nat → Pipe) : Prop where
  closed : ∀ f, (file f).ref = 0 → (file f).pipe = none
  opened : ∀ f x w, (file f).pipe = some (x,w) → (pipe x).has w = true
  once : ∀ f g e, (file f).pipe = some e → (file g).pipe = some e → f = g
  range : ∀ x, (pipe x).isOpen = true → x < lastPage

theorem Files.setRef {file : Nat → File} {pipe : Nat → Pipe} (files : Files file pipe) {f : Nat} {new : File}
    (same : new.pipe = (file f).pipe) (used : new.ref = 0 → new.pipe = none) : Files (update file f new) pipe := by
  have samePipe (g : Nat) : (update file f new g).pipe = (file g).pipe := by
    by_cases isF : g = f
    · rw [isF,update_self,same]
    · rw [update_of_ne isF]
  refine ⟨fun g zero => ?_,fun g y v isPipe => files.opened g y v (samePipe g ▸ isPipe),
    fun g h e first second => files.once g h e (samePipe g ▸ first) (samePipe h ▸ second),files.range⟩
  by_cases isF : g = f
  · rw [isF,update_self] at zero ⊢
    exact used zero
  · rw [update_of_ne isF] at zero ⊢
    exact files.closed g zero

def Proc.live (p : Proc) : Prop := p.state ≠ .UNUSED ∧ p.state ≠ .EMBRYO

structure Good (All X : Multiset Nat) (s : Machine) : Prop where
  pages : Divided All s.mem (s.held + X)
  files : Files s.file s.pipe
  low : ∀ i < NPROC, (s.proc i).live → (s.proc i).sz < KERNBASE

def Settled (s : Machine) : Prop := ∀ i < NPROC, (s.proc i).state ≠ .EMBRYO

def SameProc (p q : Proc) : Prop := q.state = p.state ∧ q.pgdir = p.pgdir ∧ q.kstack = p.kstack ∧ q.sz = p.sz

theorem SameProc.pages {p q : Proc} (same : SameProc p q) : q.pages m = p.pages m := by
  rw [Proc.pages,Proc.pages,same.1,same.2.1,same.2.2.1]

def SameProcs (s s' : Machine) : Prop := ∀ j, SameProc (s.proc j) (s'.proc j)

theorem SameProcs.refl (s : Machine) : SameProcs s s := fun _ => ⟨rfl,rfl,rfl,rfl⟩

theorem SameProcs.trans {s' s'' : Machine} (first : SameProcs s s') (second : SameProcs s' s'') : SameProcs s s'' := fun j =>
  ⟨(second j).1.trans (first j).1,(second j).2.1.trans (first j).2.1,(second j).2.2.1.trans (first j).2.2.1,
    (second j).2.2.2.trans (first j).2.2.2⟩

theorem sameProcs_of_eq {s' : Machine} (same : s'.proc = s.proc) : SameProcs s s' := fun j => by
  rw [same]
  exact ⟨rfl,rfl,rfl,rfl⟩

theorem SameProcs.settled {s' : Machine} (same : SameProcs s s') (settled : Settled s) : Settled s' := fun j inside => by
  rw [(same j).1]
  exact settled j inside

theorem Good.sameProc (good : Good All X s) {p : Proc} (same : SameProc (s.proc i) p) :
    Good All X { s with proc := update s.proc i p } ∧ SameProcs s { s with proc := update s.proc i p } := by
  have table (j : Nat) : SameProc (s.proc j) (update s.proc i p j) := by
    by_cases isI : j = i
    · rw [isI,update_self]
      exact same
    · rw [update_of_ne isI]
      exact ⟨rfl,rfl,rfl,rfl⟩
  refine ⟨⟨?_,good.files,fun j inside live => ?_⟩,table⟩
  · rw [Machine.held_sameProc same.pages]
    exact good.pages
  · dsimp only at live ⊢
    rw [Proc.live,(table j).1] at live
    rw [(table j).2.2.2]
    exact good.low j inside live

theorem Good.setFile (good : Good All X s) {f : Nat} {new : File} (files : Files (update s.file f new) s.pipe) :
    Good All X { s with file := update s.file f new } := ⟨good.pages,files,good.low⟩

section
variable {pipe : Nat → Pipe} {new : Pipe}

theorem pipePages_same (same : new.isOpen = (pipe x).isOpen) : pipePages (update pipe x new) = pipePages pipe := by
  rw [pipePages,pipePages]
  refine taken_congr fun y _ => ?_
  by_cases isX : y = x
  · rw [isX,update_self,same]
  · rw [update_of_ne isX]

theorem pipePages_open (inside : x < lastPage) (closed : (pipe x).isOpen = false) (opened : new.isOpen = true) :
    pipePages (update pipe x new) = x ::ₘ pipePages pipe := by
  rw [pipePages,pipePages]
  refine taken_fill inside (fun y _ other => ?_) ?_ ?_
  · rw [update_of_ne other]
  · rw [closed]
    rfl
  · rw [update_self,opened]
    rfl

theorem pipePages_close (inside : x < lastPage) (opened : (pipe x).isOpen = true) (closed : new.isOpen = false) :
    pipePages pipe = x ::ₘ pipePages (update pipe x new) := by
  rw [pipePages,pipePages]
  refine taken_fill inside (fun y _ other => ?_) ?_ ?_
  · rw [update_of_ne other]
  · rw [update_self,closed]
    rfl
  · rw [opened]
    rfl

theorem mem_pipePages (inside : x < lastPage) (opened : (pipe x).isOpen = true) : x ∈ pipePages pipe := by
  rw [pipePages,mem_taken]
  exact ⟨x,inside,by rw [opened]; rfl⟩

end

theorem Machine.held_setPipe (pipe : Nat → Pipe) :
    Machine.held { s with pipe := pipe } = s.mem.tree s.kpgdir + procPages s.mem s.proc (Finset.range NPROC) + pipePages pipe := rfl

theorem Pipe.open_of_has {p : Pipe} {w : Bool} (has : p.has w = true) : p.isOpen = true := by
  cases w <;> simp_all [Pipe.has,Pipe.isOpen]

theorem Pipe.has_close {p : Pipe} {w v : Bool} (other : v ≠ w) : (p.close w).has v = p.has v := by
  cases w <;> cases v <;> simp_all [Pipe.has,Pipe.close]

/-- A free page goes to the free list, and the owners keep theirs. -/
theorem wp_kfree_held {Q : Unit → Machine → Prop} (reg : Region All) (pages : Divided All s.mem (x ::ₘ (s.held + X)))
    (done : ∀ m', Divided All m' (Machine.held { s with mem := m' } + X) → Q () { s with mem := m' }) :
    Wp (sysHandle env) E (inMem (perform (.kfree x))) Q s := by
  rw [wp_inMem]
  refine wp_kfree_loose reg pages fun m' divided kept _ => done m' ?_
  rw [Machine.held_kept (kept.mono fun y inHeld => mem_add.mpr (.inl inHeld))]
  exact divided

theorem wp_pipeclose {Q : Unit → Machine → Prop} {w : Bool} (reg : Region All) (good : Good All X s) (has : (s.pipe x).has w = true)
    (last : ∀ f, (s.file f).pipe ≠ some (x,w)) (done : ∀ s', Good All X s' → s'.proc = s.proc → Q () s') :
    Wp (sysHandle env) E (pipeclose x w) Q s := by
  have opened := Pipe.open_of_has has
  have files : Files s.file (update s.pipe x ((s.pipe x).close w)) := by
    refine ⟨good.files.closed,fun f y v isPipe => ?_,good.files.once,fun y isOpen => ?_⟩
    · have old := good.files.opened f y v isPipe
      by_cases isX : y = x
      · subst isX
        have other : v ≠ w := by
          rintro rfl
          exact last f isPipe
        rw [update_self,Pipe.has_close other]
        exact old
      · rwa [update_of_ne isX]
    · by_cases isX : y = x
      · subst isX
        exact good.files.range y opened
      · rw [update_of_ne isX] at isOpen
        exact good.files.range y isOpen
  rw [pipeclose,wp_bind,wp_pipe,wp_bind,wp_setPipe]
  by_cases stays : ((s.pipe x).close w).isOpen = true
  · rw [if_pos stays]
    refine done _ ⟨?_,files,good.low⟩ rfl
    rw [Machine.held_setPipe,pipePages_same (stays.trans opened.symm)]
    exact good.pages
  · rw [if_neg stays]
    have gone := pipePages_close (good.files.range x opened) opened (by simpa using stays)
    refine wp_kfree_held (X := X) reg ?_ fun m' divided => done _ ⟨divided,files,good.low⟩ rfl
    have pages := good.pages
    rw [Machine.held,gone] at pages
    rw [Machine.held_setPipe]
    simpa only [add_cons,cons_add] using pages

theorem wp_fileclose {Q : Unit → Machine → Prop} {f : Nat} (reg : Region All) (good : Good All X s) (stops : ∀ e, E e)
    (done : ∀ s', Good All X s' → s'.proc = s.proc → Q () s') : Wp (sysHandle env) E (fileclose f) Q s := by
  rw [fileclose,wp_bind,wp_file]
  by_cases unused : (s.file f).ref < 1
  · rw [if_pos unused]
    exact wp_stop.mpr (stops _)
  rw [if_neg unused]
  by_cases shared : (s.file f).ref - 1 > 0
  · rw [if_pos shared,wp_setFile]
    exact done _ (good.setFile (good.files.setRef rfl fun zero => absurd zero (by dsimp only; omega))) rfl
  rw [if_neg shared,wp_bind,wp_setFile]
  have smaller (g : Nat) (e : Nat × Bool) (isPipe : (update s.file f ⟨0,none⟩ g).pipe = some e) : g ≠ f ∧ (s.file g).pipe = some e := by
    by_cases isF : g = f
    · rw [isF,update_self] at isPipe
      cases isPipe
    · rw [update_of_ne isF] at isPipe
      exact ⟨isF,isPipe⟩
  have files : Files (update s.file f ⟨0,none⟩) s.pipe := by
    refine ⟨fun g zero => ?_,fun g y v isPipe => good.files.opened g y v (smaller g _ isPipe).2,
      fun g h e first second => good.files.once g h e (smaller g e first).2 (smaller h e second).2,good.files.range⟩
    by_cases isF : g = f
    · rw [isF,update_self]
    · rw [update_of_ne isF] at zero ⊢
      exact good.files.closed g zero
  cases isPipe : (s.file f).pipe with
  | none => exact done _ (good.setFile files) rfl
  | some e =>
    refine wp_pipeclose reg (good.setFile files) (good.files.opened f e.1 e.2 isPipe) (fun g again => ?_) fun s' good' same => done s' good' same
    obtain ⟨other,old⟩ := smaller g _ again
    exact other (good.files.once g f _ old isPipe)

theorem wp_filedup {Q : Unit → Machine → Prop} {f : Nat} (good : Good All X s) (stops : ∀ e, E e)
    (done : ∀ s', Good All X s' → s'.proc = s.proc → s'.mem = s.mem → Q () s') : Wp (sysHandle env) E (filedup f) Q s := by
  rw [filedup,wp_bind,wp_file]
  split
  · exact wp_stop.mpr (stops _)
  · rw [wp_setFile]
    exact done _ (good.setFile (good.files.setRef rfl fun zero => by cases zero)) rfl rfl

theorem wp_filealloc_from {Q : Option Nat → Machine → Prop} (entries : List Nat)
    (found : ∀ f, (s.file f).ref = 0 → Q (some f) { s with file := update s.file f { s.file f with ref := 1 } }) (none : Q none s) :
    Wp (sysHandle env) E (filealloc_from entries) Q s := by
  induction entries with
  | nil => exact none
  | cons f rest ih =>
    rw [filealloc_from,wp_bind,wp_file]
    by_cases unused : (s.file f).ref = 0
    · rw [if_pos unused,wp_bind,wp_setFile]
      exact found f unused
    · rw [if_neg unused]
      exact ih

theorem Good.filealloc (good : Good All X s) (f : Nat) : Good All X { s with file := update s.file f { s.file f with ref := 1 } } :=
  good.setFile (good.files.setRef rfl fun zero => by cases zero)

theorem Divided.notRest {R : Multiset Nat} (divided : Divided All m (x ::ₘ R)) (reg : Region All) : x ∉ R := by
  have once := reg.once
  rw [← (divided : _ = All)] at once
  exact (nodup_cons.mp (nodup_add.mp once).2.1).1

theorem Divided.range {R : Multiset Nat} (divided : Divided All m R) (reg : Region All) (inRest : x ∈ R) : x < lastPage := by
  refine (reg.range x ?_).2
  rw [← (divided : _ = All)]
  exact mem_add.mpr (.inr inRest)

theorem Files.pipe {file : Nat → File} {pipe : Nat → Pipe} (files : Files file pipe) (inside : x < lastPage)
    (closed : (pipe x).isOpen = false) {f0 f1 : Nat} {a b : File} (usedA : a.ref ≠ 0) (usedB : b.ref ≠ 0)
    (isA : a.pipe = some (x,false)) (isB : b.pipe = some (x,true)) :
    Files (update (update file f0 a) f1 b) (update pipe x ⟨true,true⟩) := by
  -- which files have a pipe afterwards
  have cases (g : Nat) (e : Nat × Bool) (isPipe : (update (update file f0 a) f1 b g).pipe = some e) :
      (g = f1 ∧ e = (x,true)) ∨ (g = f0 ∧ e = (x,false)) ∨ ((file g).pipe = some e ∧ e.1 ≠ x) := by
    by_cases is1 : g = f1
    · rw [is1,update_self,isB] at isPipe
      exact .inl ⟨is1,(Option.some.inj isPipe).symm⟩
    rw [update_of_ne is1] at isPipe
    by_cases is0 : g = f0
    · rw [is0,update_self,isA] at isPipe
      exact .inr (.inl ⟨is0,(Option.some.inj isPipe).symm⟩)
    rw [update_of_ne is0] at isPipe
    refine .inr (.inr ⟨isPipe,fun isX => ?_⟩)
    have opened := Pipe.open_of_has (files.opened g e.1 e.2 isPipe)
    rw [isX,closed] at opened
    cases opened
  refine ⟨fun g zero => ?_,fun g y v isPipe => ?_,fun g h e one two => ?_,fun y isOpen => ?_⟩
  · by_cases is1 : g = f1
    · rw [is1,update_self] at zero
      exact absurd zero usedB
    rw [update_of_ne is1] at zero ⊢
    by_cases is0 : g = f0
    · rw [is0,update_self] at zero
      exact absurd zero usedA
    rw [update_of_ne is0] at zero ⊢
    exact files.closed g zero
  · rcases cases g _ isPipe with ⟨_,isE⟩ | ⟨_,isE⟩ | ⟨old,notX⟩
    · cases isE
      rw [update_self]
      rfl
    · cases isE
      rw [update_self]
      rfl
    · rw [update_of_ne notX]
      exact files.opened g y v old
  · rcases cases g e one with ⟨isG,isE⟩ | ⟨isG,isE⟩ | ⟨old,notX⟩
    · rcases cases h e two with ⟨isH,_⟩ | ⟨_,isE'⟩ | ⟨_,notX'⟩
      · rw [isG,isH]
      · rw [isE] at isE'
        cases isE'
      · exact absurd (by rw [isE]) notX'
    · rcases cases h e two with ⟨_,isE'⟩ | ⟨isH,_⟩ | ⟨_,notX'⟩
      · rw [isE] at isE'
        cases isE'
      · rw [isG,isH]
      · exact absurd (by rw [isE]) notX'
    · rcases cases h e two with ⟨_,isE'⟩ | ⟨_,isE'⟩ | ⟨old',_⟩
      · exact absurd (by rw [isE']) notX
      · exact absurd (by rw [isE']) notX
      · exact files.once g h e old old'
  · by_cases isX : y = x
    · rw [isX]
      exact inside
    · rw [update_of_ne isX] at isOpen
      exact files.range y isOpen

theorem Good.pipe (pages : Divided All s.mem (x ::ₘ (s.held + X))) (reg : Region All) (files : Files s.file s.pipe)
    (low : ∀ i < NPROC, (s.proc i).live → (s.proc i).sz < KERNBASE) {f0 f1 : Nat} {a b : File} (usedA : a.ref ≠ 0) (usedB : b.ref ≠ 0)
    (isA : a.pipe = some (x,false)) (isB : b.pipe = some (x,true)) :
    Good All X { s with pipe := update s.pipe x ⟨true,true⟩,
                        file := update (update s.file f0 a) f1 b } := by
  have inside := pages.range reg (mem_cons_self ..)
  have closed : (s.pipe x).isOpen = false := by
    by_contra opened
    refine pages.notRest reg (mem_add.mpr (.inl ?_))
    rw [Machine.held]
    exact mem_add.mpr (.inr (mem_pipePages inside (by simpa using opened)))
  refine ⟨?_,files.pipe inside closed usedA usedB isA isB,low⟩
  rw [Machine.held] at pages
  show Divided All s.mem (s.mem.tree s.kpgdir + procPages s.mem s.proc (Finset.range NPROC) +
    pipePages (update s.pipe x ⟨true,true⟩) + X)
  rw [pipePages_open inside closed rfl]
  simpa only [add_cons,cons_add] using pages

theorem wp_pipealloc {Q : Option (Nat × Nat) → Machine → Prop} (reg : Region All) (good : Good All X s) (stops : ∀ e, E e)
    (done : ∀ r s', Good All X s' → s'.proc = s.proc → Q r s') : Wp (sysHandle env) E pipealloc Q s := by
  rw [pipealloc,wp_bind,filealloc]
  refine wp_filealloc_from _ (fun f0 unused0 => ?_) (done none s good rfl)
  have good₁ := good.filealloc f0
  generalize one : ({ s with file := update s.file f0 { s.file f0 with ref := 1 } } : Machine) = s₁ at good₁
  have same₁ : s₁.proc = s.proc := by rw [← one]
  have at0 : s₁.file f0 = { s.file f0 with ref := 1 } := by
    rw [← one]
    exact update_self ..
  show Wp _ _ (filealloc >>= _) _ _
  rw [wp_bind,filealloc]
  refine wp_filealloc_from _ (fun f1 unused1 => ?_) ?_
  swap
  · show Wp _ _ (fileclose f0 >>= _) _ _
    rw [wp_bind]
    exact wp_fileclose reg good₁ stops fun s' good' same => done none s' good' (same.trans same₁)
  have other : f1 ≠ f0 := by
    rintro rfl
    rw [at0] at unused1
    cases unused1
  have good₂ := good₁.filealloc f1
  have at1 : (update s₁.file f1 { s₁.file f1 with ref := 1 }) f1 = { s₁.file f1 with ref := 1 } := update_self ..
  have at0' : (update s₁.file f1 { s₁.file f1 with ref := 1 }) f0 = { s.file f0 with ref := 1 } := by
    rw [update_of_ne other.symm,at0]
  generalize two : ({ s₁ with file := update s₁.file f1 { s₁.file f1 with ref := 1 } } : Machine) = s₂ at good₂
  have same₂ : s₂.proc = s.proc := by rw [← two,same₁]
  have file₂ : s₂.file = update s₁.file f1 { s₁.file f1 with ref := 1 } := by rw [← two]
  show Wp _ _ (inMem (perform (.kalloc false)) >>= _) _ _
  rw [wp_bind,wp_inMem]
  refine wp_kalloc_loose good₂.pages (fun m' p divided page => ?_) (fun m' divided page _ => ?_) fun _ _ => stops _
  · have held : Machine.held { s₂ with mem := m' } = s₂.held := Machine.held_kept fun y _ => by rw [page]
    show Wp _ _ (ask (.setPipe p ⟨true,true⟩) >>= _) _ _
    rw [wp_bind,wp_setPipe,wp_bind,wp_file,wp_bind,wp_setFile,wp_bind,wp_file,wp_bind,wp_setFile]
    refine done _ _ (Good.pipe (s := { s₂ with mem := m' }) (by rw [held]; exact divided) reg good₂.files good₂.low ?_ ?_ rfl rfl) same₂
    · dsimp only
      rw [file₂,at0']
      exact Nat.one_ne_zero
    · dsimp only
      rw [update_of_ne other,file₂,at1]
      exact Nat.one_ne_zero
  · have held : Machine.held { s₂ with mem := m' } = s₂.held := Machine.held_kept fun y _ => by rw [page]
    have good₃ : Good All X { s₂ with mem := m' } := ⟨by rw [held]; exact divided,good₂.files,good₂.low⟩
    show Wp _ _ (fileclose f0 >>= _) _ _
    rw [wp_bind]
    refine wp_fileclose reg good₃ stops fun s₄ good₄ same₄ => ?_
    rw [wp_bind]
    exact wp_fileclose reg good₄ stops fun s₅ good₅ same₅ => done none s₅ good₅ (same₅.trans (same₄.trans same₂))

theorem wp_clearfd {Q : Unit → Machine → Prop} {fd : Nat} (good : Good All X s)
    (done : ∀ s', Good All X s' → SameProcs s s' → Q () s') : Wp (sysHandle env) E (clearfd i fd) Q s := by
  rw [clearfd,wp_bind,wp_proc,wp_setProc]
  obtain ⟨good',same⟩ := good.sameProc (i := i) (p := { s.proc i with ofile := update (s.proc i).ofile fd none }) ⟨rfl,rfl,rfl,rfl⟩
  exact done _ good' same

theorem wp_fdalloc_from {Q : Option Nat → Machine → Prop} {f : Nat} (fds : List Nat) (good : Good All X s)
    (done : ∀ r s', Good All X s' → SameProcs s s' → Q r s') : Wp (sysHandle env) E (fdalloc_from i f fds) Q s := by
  induction fds with
  | nil => exact done none s good (.refl s)
  | cons fd rest ih =>
    rw [fdalloc_from,wp_bind,wp_proc]
    split
    · rw [wp_bind,wp_setProc]
      obtain ⟨good',same⟩ := good.sameProc (i := i) (p := { s.proc i with ofile := update (s.proc i).ofile fd (some f) }) ⟨rfl,rfl,rfl,rfl⟩
      exact done _ _ good' same
    · exact ih

theorem wp_sys_pipe {Q : Bool → Machine → Prop} (reg : Region All) (good : Good All X s) (stops : ∀ e, E e)
    (done : ∀ r s', Good All X s' → SameProcs s s' → Q r s') : Wp (sysHandle env) E (sys_pipe i) Q s := by
  rw [sys_pipe,wp_bind]
  refine wp_pipealloc reg good stops fun files s₁ good₁ same₁ => ?_
  have keep₁ := sameProcs_of_eq same₁
  cases files with
  | none => exact done false s₁ good₁ keep₁
  | some files =>
    obtain ⟨rf,wf⟩ := files
    -- both files are closed again
    have bad (s₂ : Machine) (good₂ : Good All X s₂) (keep₂ : SameProcs s s₂) :
        Wp (sysHandle env) E (fileclose rf >>= fun _ => fileclose wf >>= fun _ => pure false) Q s₂ := by
      rw [wp_bind]
      refine wp_fileclose reg good₂ stops fun s₃ good₃ same₃ => ?_
      rw [wp_bind]
      exact wp_fileclose reg good₃ stops fun s₄ good₄ same₄ =>
        done false s₄ good₄ ((keep₂.trans (sameProcs_of_eq same₃)).trans (sameProcs_of_eq same₄))
    show Wp _ _ (fdalloc i rf >>= _) _ _
    rw [wp_bind,fdalloc]
    refine wp_fdalloc_from _ good₁ fun fd0 s₂ good₂ keep₂ => ?_
    have keep := keep₁.trans keep₂
    cases fd0 with
    | none => exact bad s₂ good₂ keep
    | some fd0 =>
      show Wp _ _ (fdalloc i wf >>= _) _ _
      rw [wp_bind,fdalloc]
      refine wp_fdalloc_from _ good₂ fun fd1 s₃ good₃ keep₃ => ?_
      cases fd1 with
      | some fd1 => exact done true s₃ good₃ (keep.trans keep₃)
      | none =>
        show Wp _ _ (clearfd i fd0 >>= _) _ _
        rw [wp_bind]
        exact wp_clearfd good₃ fun s₄ good₄ keep₄ => bad s₄ good₄ ((keep.trans keep₃).trans keep₄)

theorem wp_sys_close {Q : Bool → Machine → Prop} {fd : Nat} (reg : Region All) (good : Good All X s) (stops : ∀ e, E e)
    (done : ∀ r s', Good All X s' → SameProcs s s' → Q r s') : Wp (sysHandle env) E (sys_close i fd) Q s := by
  rw [sys_close]
  split
  · rw [closefd,wp_bind,wp_proc]
    cases (s.proc i).ofile fd with
    | none => exact done false s good (.refl s)
    | some f =>
      show Wp _ _ (clearfd i fd >>= _) _ _
      rw [wp_bind]
      refine wp_clearfd good fun s₁ good₁ keep₁ => ?_
      rw [wp_bind]
      exact wp_fileclose reg good₁ stops fun s₂ good₂ same₂ => done true s₂ good₂ (keep₁.trans (sameProcs_of_eq same₂))
  · exact done false s good (.refl s)

theorem wp_exit_files {Q : Unit → Machine → Prop} (fds : List Nat) (reg : Region All) (good : Good All X s) (stops : ∀ e, E e)
    (done : ∀ s', Good All X s' → SameProcs s s' → Q () s') : Wp (sysHandle env) E (exit_files i fds) Q s := by
  induction fds generalizing s with
  | nil => exact done s good (.refl s)
  | cons fd rest ih =>
    rw [exit_files,wp_bind,wp_proc]
    cases (s.proc i).ofile fd with
    | none => exact ih good done
    | some f =>
      show Wp _ _ (fileclose f >>= _) _ _
      rw [wp_bind]
      refine wp_fileclose reg good stops fun s₁ good₁ same₁ => ?_
      rw [wp_bind]
      refine wp_clearfd good₁ fun s₂ good₂ keep₂ => ?_
      exact ih good₂ fun s' good' keep' => done s' good' (((sameProcs_of_eq same₁).trans keep₂).trans keep')

theorem wp_exit_children {Q : Unit → Machine → Prop} (entries : List Nat) (good : Good All X s)
    (done : ∀ s', Good All X s' → SameProcs s s' → Q () s') : Wp (sysHandle env) E (exit_children i entries) Q s := by
  induction entries generalizing s with
  | nil => exact done s good (.refl s)
  | cons j rest ih =>
    rw [exit_children,wp_bind,wp_proc]
    split
    · rw [wp_bind,wp_setProc]
      obtain ⟨good₁,keep₁⟩ := good.sameProc (i := j) (p := { s.proc j with parent := some initproc }) ⟨rfl,rfl,rfl,rfl⟩
      exact ih good₁ fun s' good' keep' => done s' good' (keep₁.trans keep')
    · exact ih good done

theorem Good.setState (good : Good All X s) (inside : i < NPROC) {p : Proc} (was : (s.proc i).live) (live : p.live)
    (dir : p.pgdir = (s.proc i).pgdir) (stack : p.kstack = (s.proc i).kstack) (size : p.sz = (s.proc i).sz) :
    Good All X { s with proc := update s.proc i p } := by
  refine ⟨?_,good.files,fun j low' live' => ?_⟩
  · rw [Machine.held_sameProc]
    · exact good.pages
    · rw [Proc.pages_live live.1 live.2,Proc.pages_live was.1 was.2,dir,stack]
  · dsimp only at live' ⊢
    by_cases isI : j = i
    · rw [isI,update_self,size]
      exact good.low i inside was
    · rw [update_of_ne isI] at live' ⊢
      exact good.low j low' live'

theorem Settled.setProc (settled : Settled s) {p : Proc} (made : p.state ≠ .EMBRYO) :
    Settled { s with proc := update s.proc i p } := by
  intro j inside
  dsimp only
  by_cases isI : j = i
  · rw [isI,update_self]
    exact made
  · rw [update_of_ne isI]
    exact settled j inside

theorem wp_exit {Q : Unit → Machine → Prop} (reg : Region All) (good : Good All X s) (settled : Settled s) (inside : i < NPROC)
    (running : (s.proc i).state = .RUNNABLE) (stops : ∀ e, E e) (done : ∀ s', Good All X s' → Settled s' → Q () s') :
    Wp (sysHandle env) E (exit i) Q s := by
  rw [exit]
  split
  · exact wp_stop.mpr (stops _)
  rw [wp_bind]
  refine wp_exit_files _ reg good stops fun s₁ good₁ keep₁ => ?_
  rw [wp_bind]
  refine wp_exit_children _ good₁ fun s₂ good₂ keep₂ => ?_
  have keep := keep₁.trans keep₂
  have live : (s₂.proc i).live := by
    rw [Proc.live,(keep i).1,running]
    decide
  rw [wp_bind,wp_proc,wp_setProc]
  exact done _ (good₂.setState inside live (p := { s₂.proc i with state := .ZOMBIE }) ⟨nofun,nofun⟩ rfl rfl rfl)
    ((keep.settled settled).setProc nofun)

theorem wp_wait_found {Q : Unit → Machine → Prop} {j : Nat} (reg : Region All) (good : Good All X s) (settled : Settled s)
    (inside : j < NPROC) (zombie : (s.proc j).state = .ZOMBIE) (done : ∀ s', Good All X s' → Settled s' → Q () s') :
    Wp (sysHandle env) E (wait_found j) Q s := by
  have pages := good.pages
  rw [Machine.held_split inside,Proc.pages_live (by rw [zombie]; decide) (by rw [zombie]; decide),cons_add,cons_add] at pages
  rw [wait_found,wp_bind,wp_proc,wp_bind,wp_inMem]
  refine wp_kfree_loose reg pages fun m₁ divided₁ kept₁ _ => ?_
  rw [wp_bind,wp_setProc,wp_bind,wp_inMem]
  have tree : m₁.tree (s.proc j).pgdir = s.mem.tree (s.proc j).pgdir :=
    tree_kept (kept₁.mono fun x inTree => mem_add.mpr (.inl (mem_add.mpr (.inl inTree))))
  have owned₁ : Owned All m₁ (s.proc j).pgdir (s.others j + X) := by
    rw [Divided,add_assoc,← tree] at divided₁
    exact divided₁
  refine wp_freevm reg owned₁ fun m₂ divided₂ kept₂ => ?_
  have same : Machine.others { s with mem := m₂ } j = s.others j := by
    refine Machine.others_kept fun x inOthers => ?_
    rw [kept₂ x (mem_add.mpr (.inl inOthers)),kept₁ x (mem_add.mpr (.inl (mem_add.mpr (.inr inOthers))))]
  rw [wp_setProc]
  dsimp only
  rw [update_idem]
  refine done _ ⟨?_,good.files,fun k low' live => ?_⟩ (settled.setProc (s := { s with mem := m₂ }) (by simp))
  · rw [Machine.held_setProc (s := { s with mem := m₂ }) inside,same]
    show Divided All m₂ (0 + s.others j + X)
    rwa [zero_add]
  · dsimp only at live ⊢
    by_cases isJ : k = j
    · rw [isJ,update_self] at live
      exact absurd rfl live.1
    · rw [update_of_ne isJ] at live ⊢
      exact good.low k low' live

theorem wp_wait_from {Q : Option Nat → Machine → Prop} (entries : List Nat) (inside : ∀ j ∈ entries, j < NPROC) {havekids : Bool}
    (reg : Region All) (good : Good All X s) (settled : Settled s) (stops : ∀ e, E e)
    (done : ∀ r s', Good All X s' → Settled s' → Q r s') : Wp (sysHandle env) E (wait_from i entries havekids) Q s := by
  induction entries generalizing havekids with
  | nil =>
    rw [wait_from]
    split
    · exact stops .sleep
    · exact done none s good settled
  | cons j rest ih =>
    have insideRest (k : Nat) (member : k ∈ rest) := inside k (List.mem_cons_of_mem _ member)
    rw [wait_from,wp_bind,wp_proc]
    split
    · exact ih insideRest
    split
    · rename_i zombie
      rw [wp_bind]
      exact wp_wait_found reg good settled (inside j (List.mem_cons_self ..)) zombie fun s' good' settled' => done (some j) s' good' settled'
    · exact ih insideRest

end Osce.Vm
