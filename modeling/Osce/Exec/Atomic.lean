import Osce.Exec.Code
import Osce.Sys.State
import Osce.Vm.OneOwner

/-!
An `exec` that returns -1 has changed nothing of the calling process: its entry, its open files and its current directory, and
the pages of its address space are as before, what was taken of the file system is released, and the transaction has ended.
-/
namespace Osce.Exec
open Osce.Lib Prog
open Osce.Sys (Entry SysOp SysSig SysProg)
open Osce.Vm (VmProg Mem Env)

namespace Ledger
variable (l : Ledger) (e : Entry)

@[simp] theorem addRef_back : (l.addRef e 1).addRef e (-1) = l := by
  apply Ledger.ext
  · funext x
    simp only [addRef]
    split <;> omega
  · rfl
  · rfl
  · rfl

@[simp] theorem addLock_back : (l.addLock e 1).addLock e (-1) = l := by
  apply Ledger.ext
  · rfl
  · funext x
    simp only [addLock]
    split <;> omega
  · rfl
  · rfl

theorem addRef_comm (e' : Entry) (j k : Int) : (l.addRef e j).addRef e' k = (l.addRef e' k).addRef e j := by
  apply Ledger.ext
  · funext x
    simp only [addRef]
    omega
  · rfl
  · rfl
  · rfl

theorem addRef_addLock (e' : Entry) (j k : Int) : (l.addLock e j).addRef e' k = (l.addRef e' k).addLock e j := rfl

end Ledger

section
variable {σ : Type} {fs : Handler SysSig σ} {E : Stop → Prop} {s : Own σ} {e : Entry} {l : Ledger}

def Allows (fs : Handler SysSig σ) (E : Stop → Prop) : Prop := ∀ op t x, fs op t = .error x → E x

def Own.moved (s : Own σ) (t : σ) (l : Ledger) : Own σ := { s with fs := t, ledger := l }

theorem wp_answer (allows : Allows fs E) {op : SysOp} {Q : op.Ans → Own σ → Prop}
    (passes : audit fs op s = match fs op s.fs with
      | .ok (a,t) => .ok (a,{ s with fs := t, ledger := s.ledger.after op a })
      | .error e => .error e)
    (done : ∀ a t, Q a (s.moved t (s.ledger.after op a))) : Wp (audit fs) E (Sys.perform op) Q s := by
  rw [Sys.perform,Prog.perform,wp_call,passes]
  cases answered : fs op s.fs with
  | error x => exact allows op s.fs x answered
  | ok r => exact done r.1 r.2

theorem wp_panic (allows : Allows fs E) {α : Type} {Q : α → Own σ → Prop} {message : String} : Wp (audit fs) E (Sys.panic message) Q s := by
  rw [Sys.panic,wp_call]
  cases answered : fs (.panic message) s.fs with
  | ok r => exact r.1.elim
  | error x =>
    have stopped : audit fs (.panic message) s = .error x := by simp [audit,answered]
    rw [stopped]
    exact allows _ _ x answered

theorem wp_ilock (allows : Allows fs E) {Q : Unit → Own σ → Prop} (done : ∀ t, Q () (s.moved t (s.ledger.addLock e 1))) :
    Wp (audit fs) E (Sys.ilock e) Q s := by
  rw [Sys.ilock,wp_bind]
  refine wp_answer allows rfl fun _ t => ?_
  rw [wp_bind]
  exact wp_answer allows rfl fun _ t' => done t'

theorem wp_iput (allows : Allows fs E) {Q : Unit → Own σ → Prop} (done : ∀ t, Q () (s.moved t (s.ledger.addRef e (-1)))) :
    Wp (audit fs) E (Sys.iput e) Q s := by
  rw [Sys.iput,wp_bind]
  refine wp_answer allows rfl fun free t => ?_
  cases free with
  | false => exact done t
  | true =>
    rw [if_pos rfl,wp_bind]
    refine wp_answer allows rfl fun _ t' => wp_answer allows rfl fun _ t'' => ?_
    have balanced : ((s.ledger.addLock e 1).addLock e (-1)).addRef e (-1) = s.ledger.addRef e (-1) := by simp
    have final := done t''
    rw [← balanced] at final
    exact final

theorem wp_iunlockput (allows : Allows fs E) {Q : Unit → Own σ → Prop} (taken : s.ledger = (l.addRef e 1).addLock e 1) (done : ∀ t, Q () (s.moved t l)) :
    Wp (audit fs) E (Sys.iunlockput e) Q s := by
  rw [Sys.iunlockput,wp_bind,Sys.iunlock]
  refine wp_answer allows rfl fun _ t => wp_iput allows fun t' => ?_
  have balanced : (s.ledger.addLock e (-1)).addRef e (-1) = l := by rw [taken,Ledger.addLock_back,Ledger.addRef_back]
  have final := done t'
  rw [← balanced] at final
  exact final

/-- What a walk that started with this ledger leaves behind. -/
def Ledger.found (l : Ledger) : Option Entry → Ledger
  | some e => l.addRef e 1
  | none => l

theorem wp_namex_from (allows : Allows fs E) {Q : Option (Entry × Sys.Name) → Own σ → Prop} (parent : Bool) (names : List Sys.Name) {name : Sys.Name}
    (taken : s.ledger = l.addRef e 1) (done : ∀ r t, Q r (s.moved t (l.found (r.map (·.1))))) :
    Wp (audit fs) E (Sys.namex_from parent names name e) Q s := by
  induction names generalizing s e name with
  | nil =>
    rw [Sys.namex_from]
    cases parent with
    | false =>
      have final := done (some (e,name)) s.fs
      rw [show l.found ((some (e,name)).map (·.1)) = s.ledger from taken.symm] at final
      exact final
    | true =>
      rw [if_pos rfl,wp_bind]
      refine wp_iput allows fun t => ?_
      have final := done none t
      rw [taken,Ledger.addRef_back]
      exact final
  | cons elem rest ih =>
    rw [Sys.namex_from,wp_bind]
    refine wp_ilock allows fun t₁ => ?_
    have taken₁ : (s.moved t₁ (s.ledger.addLock e 1)).ledger = (l.addRef e 1).addLock e 1 := congrArg (·.addLock e 1) taken
    have done₁ : ∀ r t, Q r ((s.moved t₁ (s.ledger.addLock e 1)).moved t (l.found (r.map (·.1)))) := done
    generalize s.moved t₁ (s.ledger.addLock e 1) = s₁ at *
    rw [wp_bind]
    refine wp_answer allows rfl fun d t₂ => ?_
    have taken₂ : (s₁.moved t₂ s₁.ledger).ledger = (l.addRef e 1).addLock e 1 := taken₁
    have done₂ : ∀ r t, Q r ((s₁.moved t₂ s₁.ledger).moved t (l.found (r.map (·.1)))) := done₁
    show Wp _ _ _ _ (s₁.moved t₂ s₁.ledger)
    generalize s₁.moved t₂ s₁.ledger = s₂ at *
    have gives_up : Wp (audit fs) E (Sys.iunlockput e >>= fun _ => pure none) Q s₂ := by
      rw [wp_bind]
      exact wp_iunlockput allows taken₂ fun t => done₂ none t
    split
    · exact gives_up
    · split
      · rw [Sys.iunlock,wp_bind]
        refine wp_answer allows rfl fun _ t₃ => ?_
        have final := done₂ (some (e,elem)) t₃
        have balanced : s₂.ledger.addLock e (-1) = l.addRef e 1 := by rw [taken₂,Ledger.addLock_back]
        rw [show l.found ((some (e,elem)).map (·.1)) = l.addRef e 1 from rfl,← balanced] at final
        exact final
      · rw [wp_bind,Sys.dirlookup,wp_bind]
        refine wp_answer allows rfl fun d' t₃ => ?_
        split
        · exact wp_panic allows
        · rw [wp_bind]
          refine wp_answer allows rfl fun des t₄ => ?_
          show Wp _ _ _ _ (s₂.moved t₄ s₂.ledger)
          have taken₄ : (s₂.moved t₄ s₂.ledger).ledger = (l.addRef e 1).addLock e 1 := taken₂
          have done₄ : ∀ r t, Q r ((s₂.moved t₄ s₂.ledger).moved t (l.found (r.map (·.1)))) := done₂
          generalize s₂.moved t₄ s₂.ledger = s₄ at *
          cases Sys.lookup elem des with
          | none =>
            show Wp _ _ (Sys.iunlockput e >>= fun _ => pure none) _ _
            rw [wp_bind]
            exact wp_iunlockput allows taken₄ fun t => done₄ none t
          | some entry =>
            dsimp only
            rw [wp_bind]
            refine wp_answer allows rfl fun next t₅ => ?_
            show Wp _ _ (Sys.iunlockput e >>= _) _ (s₄.moved t₅ (s₄.ledger.addRef next 1))
            rw [wp_bind]
            have taken₅ : (s₄.moved t₅ (s₄.ledger.addRef next 1)).ledger = ((l.addRef next 1).addRef e 1).addLock e 1 := by
              show s₄.ledger.addRef next 1 = _
              rw [taken₄,Ledger.addRef_addLock,Ledger.addRef_comm]
            refine wp_iunlockput allows taken₅ fun t₆ => ?_
            exact ih rfl done₄

theorem wp_namei (allows : Allows fs E) {Q : Option Entry → Own σ → Prop} (path : List UInt8) (done : ∀ r t, Q r (s.moved t (s.ledger.found r))) :
    Wp (audit fs) E (Sys.namei path) Q s := by
  have walk (e : Entry) (t : σ) : Wp (audit fs) E (Sys.namex_from false (Sys.elems path) [] e)
      (fun r s' => Wp (audit fs) E (pure (r.map (·.1))) Q s') (s.moved t (s.ledger.addRef e 1)) :=
    wp_namex_from allows false _ rfl fun r t' => by
      rw [wp_pure]
      exact done _ t'
  rw [Sys.namei,wp_bind,Sys.namex]
  split
  · rw [wp_bind]
    exact wp_answer allows rfl fun e t => walk e t
  · rw [wp_bind,Sys.perform,Prog.perform,wp_call]
    have answer : audit fs .cwd s = .ok (s.proc.cwd,s) := rfl
    rw [answer]
    dsimp only
    rw [wp_ret]
    cases s.proc.cwd with
    | none => exact wp_panic allows
    | some e =>
      dsimp only
      rw [wp_bind]
      exact wp_answer allows rfl fun _ t => walk e t

end

section
variable {σ : Type} {fs : Handler SysSig σ} {file : List UInt8} {env : Env} {E : Stop → Prop} {s t : World σ} {e : Entry}

theorem wp_onFs {α : Type} {p : SysProg α} {Q : α → World σ → Prop} :
    Wp (handle fs file env) E (onFs p) Q s ↔ Wp (audit fs) E p (fun a own => Q a { s with own := own }) s.own := by
  refine wp_interp World.own (fun s own => { s with own := own }) (fun _ _ => rfl) (fun _ => rfl) (fun _ _ _ => rfl) fun op s => ?_
  have step : handle fs file env (.fs op) s = match audit fs op s.own with
      | .ok (a,own) => .ok (a,{ s with own := own })
      | .error e => .error e := rfl
  rw [ask,Prog.perform,exec_call,step]
  cases audit fs op s.own <;> rfl

theorem wp_inMem {α : Type} {p : VmProg α} {Q : α → World σ → Prop} :
    Wp (handle fs file env) E (inMem p) Q s ↔ Wp (Vm.handle env) E p (fun a m => Q a { s with mem := m }) s.mem := by
  refine wp_interp World.mem (fun s m => { s with mem := m }) (fun _ _ => rfl) (fun _ => rfl) (fun _ _ _ => rfl) fun op s => ?_
  have step : handle fs file env (.vm op) s = match Vm.handle env op s.mem with
      | .ok (a,m) => .ok (a,{ s with mem := m })
      | .error e => .error e := rfl
  rw [ask,Prog.perform,exec_call,step]
  cases Vm.handle env op s.mem <;> rfl

theorem wp_contents {Q : List UInt8 → World σ → Prop} : Wp (handle fs file env) E (ask (.contents e)) Q s ↔ Q file s := Iff.rfl

theorem wp_proc {Q : Process → World σ → Prop} : Wp (handle fs file env) E (ask .proc) Q s ↔ Q s.own.proc s := Iff.rfl

/-- The inode is unlocked and released, and the transaction ends. -/
def Releases (fs : Handler SysSig σ) (E : Stop → Prop) (e : Entry) (own : Own σ) (P : Own σ → Prop) : Prop :=
  Wp (audit fs) E (Sys.iunlockput e >>= fun _ => Sys.perform .end_op) (fun _ own' => P own') own

variable {P : Own σ → Prop} {Q : Int → World σ → Prop}

theorem wp_release {β : Type} {Q : β → World σ → Prop} {f : Unit → ExecProg β} (release : Releases fs E e t.own P)
    (done : ∀ own, P own → Wp (handle fs file env) E (f ()) Q { t with own := own }) :
    Wp (handle fs file env) E (onFs (Sys.iunlockput e) >>= fun _ => onFs (Sys.perform .end_op) >>= f) Q t := by
  rw [Releases,wp_bind] at release
  rw [wp_bind,wp_onFs]
  refine wp_mono release fun _ own ended => ?_
  rw [wp_bind,wp_onFs]
  exact wp_mono ended fun _ own' final => done own' final

theorem wp_bad_locked (release : Releases fs E e t.own P) (done : ∀ own, P own → Q (-1) { t with own := own }) :
    Wp (handle fs file env) E (bad none (some e)) Q t := by
  unfold bad
  exact wp_release release done

theorem wp_bad_loaded {d : Nat} (release : Releases fs E e t.own P)
    (freed : Wp (Vm.handle env) E (Vm.freevm d) (fun _ m => ∀ own, P own → Q (-1) ⟨own,m⟩) t.mem) :
    Wp (handle fs file env) E (bad (some d) (some e)) Q t := by
  unfold bad
  show Wp _ _ (inMem (Vm.freevm d) >>= fun _ => onFs (Sys.iunlockput e) >>= fun _ => onFs (Sys.perform .end_op) >>= fun _ => pure (-1)) _ _
  rw [wp_bind,wp_inMem]
  refine wp_mono freed fun _ m done => ?_
  have release' : Releases fs E e (World.own { t with mem := m }) P := release
  exact wp_release release' done

theorem wp_bad_unlocked {d : Nat} (freed : Wp (Vm.handle env) E (Vm.freevm d) (fun _ m => Q (-1) { t with mem := m }) t.mem) :
    Wp (handle fs file env) E (bad (some d) none) Q t := by
  unfold bad
  show Wp _ _ (inMem (Vm.freevm d) >>= fun _ => pure (-1)) _ _
  rw [wp_bind,wp_inMem]
  exact freed

theorem wp_exec_locked {path : List UInt8} {argv : List (List UInt8)} {V : Option Vm.Image → Mem → Prop}
    (memory : Wp (Vm.handle env) E (Vm.exec t.own.proc.pgdir file argv) V t.mem) (release : Releases fs E e t.own P)
    (same : ∀ own, P own → own.proc.pgdir = t.own.proc.pgdir) (fail : ∀ own m, P own → V none m → Q (-1) ⟨own,m⟩)
    (succeed : ∀ own m image, P own → V (some image) m → Wp (handle fs file env) E (commit path image) Q ⟨own,m⟩) :
    Wp (handle fs file env) E (exec_locked path argv e) Q t := by
  have early (failed : V none t.mem) : Wp (handle fs file env) E (bad none (some e)) Q t :=
    wp_bad_locked release fun own final => fail own t.mem final failed
  rw [Vm.exec] at memory
  rw [exec_locked,wp_bind,wp_contents]
  cases header : Vm.readi file 0 Vm.SIZEOF_ELFHDR with
  | none =>
    rw [header] at memory
    exact early memory
  | some bytes =>
    rw [header] at memory
    dsimp only at memory ⊢
    by_cases small : bytes.length < Vm.SIZEOF_ELFHDR
    · rw [if_pos small] at memory ⊢
      exact early memory
    rw [if_neg small] at memory ⊢
    by_cases other : (Vm.Elfhdr.ofBytes bytes).magic ≠ Vm.ELF_MAGIC
    · rw [if_pos other] at memory ⊢
      exact early memory
    rw [if_neg other,wp_bind] at memory
    rw [if_neg other,wp_bind,wp_inMem]
    refine wp_mono memory fun pgdir m₁ rest => ?_
    have release₁ (m : Mem) : Releases fs E e (World.own { t with mem := m }) P := release
    cases pgdir with
    | none => exact wp_bad_locked (release₁ m₁) fun own final => fail own m₁ final rest
    | some d =>
      dsimp only at rest ⊢
      rw [wp_bind] at rest
      rw [wp_bind,wp_inMem]
      refine wp_mono rest fun loaded m₂ rest => ?_
      cases loaded with
      | none =>
        dsimp only at rest ⊢
        rw [wp_bind] at rest
        exact wp_bad_loaded (release₁ m₂) (wp_mono rest fun _ m₃ failed own final => fail own m₃ final failed)
      | some sz =>
        dsimp only at rest ⊢
        refine wp_release (release₁ m₂) fun own final => ?_
        rw [wp_bind] at rest
        rw [wp_bind,wp_proc,wp_bind,wp_inMem,same own final]
        refine wp_mono rest fun image m₃ rest => ?_
        cases image with
        | none =>
          dsimp only at rest ⊢
          rw [wp_bind] at rest
          exact wp_bad_unlocked (wp_mono rest fun _ m₄ failed => fail own m₄ final failed)
        | some image => exact succeed own m₃ image final rest

end

section
open Osce.Vm (Region Divided Kept Loads)
variable {σ : Type} {fs : Handler SysSig σ} {file : List UInt8} {env : Env} {E : Stop → Prop} {All R : Multiset Nat} {s s' : World σ} {e : Entry}

def Ledger.begun (l : Ledger) : Ledger := { l with begins := l.begins + 1 }
def Ledger.ended (l : Ledger) : Ledger := { l with ends := l.ends + 1 }

theorem releases {own : Own σ} {l : Ledger} (allows : Allows fs E) (taken : own.ledger = (l.addRef e 1).addLock e 1) :
    Releases fs E e own fun own' => own'.proc = own.proc ∧ own'.ledger = l.ended := by
  rw [Releases,wp_bind]
  exact wp_iunlockput allows taken fun t => wp_answer allows rfl fun _ t' => ⟨rfl,rfl⟩

theorem wp_exec {path : List UInt8} {argv : List (List UInt8)} {V : Option Vm.Image → Mem → Prop} {Q : Int → World σ → Prop}
    (allows : Allows fs E) (memory : Wp (Vm.handle env) E (Vm.exec s.own.proc.pgdir file argv) V s.mem)
    (fail : ∀ own m, own.proc = s.own.proc → own.ledger = s.own.ledger.begun.ended → V none m ∨ m = s.mem → Q (-1) ⟨own,m⟩)
    (succeed : ∀ own m image, own.proc = s.own.proc → V (some image) m → Wp (handle fs file env) E (commit path image) Q ⟨own,m⟩) :
    Wp (handle fs file env) E (exec path argv) Q s := by
  rw [exec,wp_bind,wp_onFs]
  refine wp_answer allows rfl fun _ t₁ => ?_
  rw [wp_bind,wp_onFs]
  refine wp_namei allows path fun found t₂ => ?_
  cases found with
  | none =>
    dsimp only
    rw [wp_bind,wp_onFs]
    exact wp_answer allows rfl fun _ t₃ => fail _ _ rfl rfl (.inr rfl)
  | some e =>
    dsimp only
    rw [wp_bind,wp_onFs]
    refine wp_ilock allows fun t₃ => ?_
    refine wp_exec_locked memory (releases allows rfl) (fun own final => by rw [final.1]) (fun own m final failed => ?_)
      fun own m image final built => ?_
    · exact fail own m final.1 final.2 (.inl failed)
    · exact succeed own m image final.1 built

end

section
open Osce.Layout (ROOTINO T_DIR T_FILE)

def oneFile (i : Nat) : Sys.Inode :=
  if i = ROOTINO then ⟨T_DIR,0,0,1,[⟨ROOTINO,Fs.strncpy Sys.dot⟩,⟨ROOTINO,Fs.strncpy Sys.dotdot⟩,⟨2,Fs.strncpy [97]⟩]⟩
  else if i = 2 then ⟨T_FILE,0,0,1,[]⟩ else ⟨0,0,0,0,[]⟩

def before (proc : Process) (m : Mem) : World Sys.State := ⟨⟨Sys.State.boot oneFile,proc,⟨fun _ => 0,fun _ => 0,0,0⟩⟩,m⟩

end

end Osce.Exec
