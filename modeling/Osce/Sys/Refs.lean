import Osce.Sys.Calls
import Osce.Sys.Counts

/-!
The references in a run. A call holds what its contract says, and a process that is not in
a call holds what its entry in the process table names. The counters are the sums
of all that, after every operation of any process.
-/
namespace Osce.Sys
open Osce.Lib Osce.Layout Prog Function State
open Osce.Procs (NPROC ProcState)

def State.atRest (s : State) (p : Proc) : Hold where
  ofile := (s.procs p).ofile
  cwd := (s.procs p).cwd
  files := slots (s.procs p).ofile
  inodes := (s.procs p).cwd.elim 0 fun e => {e}
  fresh := ∅
  ends := 0
  pages := 0
  child := none

def State.held {X : Type} (s : State) (holds : Proc → Option Hold) (part : Hold → X) (p : Proc) : X :=
  part ((holds p).getD (s.atRest p))

section
variable {X : Type} {s s' : State} {holds : Proc → Option Hold} {p q : Proc} {h h' : Hold} {part : Hold → X}

theorem held_mine (mine : holds p = some h) : s.held holds part p = part h := by simp [held,mine]

theorem held_idle (part : Hold → X) (idle : holds p = none) : s.held holds part p = part (s.atRest p) := by simp [held,idle]

theorem held_keep (part : Hold → X) (mine : holds p = some h) : update (s.held holds part) p (part h) = s.held holds part :=
  update_eq_self_iff.mpr (held_mine mine).symm

theorem held_files (idle : holds p = none) :
    update (s.held holds Hold.files) p (slots (s.procs p).ofile) = s.held holds Hold.files :=
  update_eq_self_iff.mpr (held_idle Hold.files idle).symm

theorem held_inodes (idle : holds p = none) :
    update (s.held holds Hold.inodes) p ((s.procs p).cwd.elim 0 fun e => {e}) = s.held holds Hold.inodes :=
  update_eq_self_iff.mpr (held_idle Hold.inodes idle).symm

theorem held_update (s s' : State) {l : Option Hold} (others : ∀ q, q ≠ p → part (s'.atRest q) = part (s.atRest q)) :
    s'.held (update holds p l) part = update (s.held holds part) p (part (l.getD (s'.atRest p))) := by
  funext q
  by_cases same : q = p
  · subst same
    simp [held]
  · cases idle : holds q <;> simp [held,same,idle,others q same]

theorem ne_of_idle (mine : holds p = some h) (idle : holds q = none) : q ≠ p := by
  rintro rfl
  rw [mine] at idle
  cases idle

end

structure ProcHolds (holds : Proc → Option Hold) (procs : Proc → ProcEntry) : Prop where
  own : ∀ p h, holds p = some h → (procs p).state = .RUNNABLE ∧ h.ofile = (procs p).ofile ∧ h.cwd = (procs p).cwd
  child : ∀ p h c, holds p = some h → h.child = some c → (procs c.proc).state = .EMBRYO ∧
    (procs c.proc).ofile = c.ofile ∧ (procs c.proc).cwd = c.cwd
  apart : ∀ p q h k c d, holds p = some h → holds q = some k → h.child = some c → k.child = some d → c.proc = d.proc → p = q
  idle : ∀ p, holds p = none → (procs p).state = .RUNNABLE → (procs p).cwd ≠ none
  empty : ∀ p, (procs p).state = .UNUSED ∨ (procs p).state = .ZOMBIE → (procs p).ofile = (fun _ => none) ∧ (procs p).cwd = none

structure Refs (holds : Proc → Option Hold) (s : State) : Prop where
  files : FileRefs s.ftable (s.held holds Hold.files) (s.held holds Hold.fresh)
  inodes : InodeRefs (fun e => (s.icache e).ref) s.ftable (s.held holds Hold.inodes)
  pipes : PipeRefs s.pipes s.npipes s.ftable (s.held holds Hold.ends) (s.held holds Hold.pages)
  procs : ProcHolds holds s.procs

section
variable {s s' : State} {holds : Proc → Option Hold} {p : Proc} {h h' : Hold}

theorem ProcHolds.congr {procs procs' : Proc → ProcEntry} (proper : ProcHolds holds procs)
    (same : ∀ q, (procs' q).state = (procs q).state ∧ (procs' q).ofile = (procs q).ofile ∧ (procs' q).cwd = (procs q).cwd) :
    ProcHolds holds procs' := by
  refine ⟨fun p h mine => ?_,fun p h c mine child => ?_,proper.apart,fun p free runnable => ?_,fun p unused => ?_⟩
  · rw [(same p).1,(same p).2.1,(same p).2.2]
    exact proper.own p h mine
  · rw [(same c.proc).1,(same c.proc).2.1,(same c.proc).2.2]
    exact proper.child p h c mine child
  · rw [(same p).1] at runnable
    rw [(same p).2.2]
    exact proper.idle p free runnable
  · rw [(same p).1] at unused
    rw [(same p).2.1,(same p).2.2]
    exact proper.empty p unused

theorem ProcHolds.changed {procs procs' : Proc → ProcEntry} (proper : ProcHolds holds procs) {l : Option Hold}
    (others : ∀ q, q ≠ p → (procs' q).state = (procs q).state ∧ (procs' q).ofile = (procs q).ofile ∧ (procs' q).cwd = (procs q).cwd)
    (grown : (procs p).state ≠ .EMBRYO)
    (own : ∀ k, l = some k → (procs' p).state = .RUNNABLE ∧ k.ofile = (procs' p).ofile ∧ k.cwd = (procs' p).cwd)
    (child : ∀ k c, l = some k → k.child = some c → ∃ k₀, holds p = some k₀ ∧ k₀.child = some c)
    (idle : l = none → (procs' p).state = .RUNNABLE → (procs' p).cwd ≠ none)
    (empty : (procs' p).state = .UNUSED ∨ (procs' p).state = .ZOMBIE → (procs' p).ofile = (fun _ => none) ∧ (procs' p).cwd = none) :
    ProcHolds (update holds p l) procs' := by
  have before {q : Proc} {k : Hold} {c : Child} (isK : update holds p l q = some k) (isC : k.child = some c) :
      ∃ k₀, holds q = some k₀ ∧ k₀.child = some c := by
    by_cases same : q = p
    · subst same
      rw [update_self] at isK
      exact child k c isK isC
    · rw [update_of_ne same] at isK
      exact ⟨k,isK,isC⟩
  refine ⟨fun q k isK => ?_,fun q k c isK isC => ?_,fun q r k l c d isK isL isC isD => ?_,fun q free runnable => ?_,fun q unused => ?_⟩
  · by_cases same : q = p
    · subst same
      rw [update_self] at isK
      exact own k isK
    · rw [update_of_ne same] at isK
      simp only [others q same]
      exact proper.own q k isK
  · obtain ⟨k₀,was,isC⟩ := before isK isC
    have embryo := proper.child q k₀ c was isC
    have other : c.proc ≠ p := fun same => grown (same ▸ embryo.1)
    simp only [others c.proc other]
    exact embryo
  · obtain ⟨k₀,was,isC⟩ := before isK isC
    obtain ⟨l₀,was',isD⟩ := before isL isD
    exact proper.apart q r k₀ l₀ c d was was' isC isD
  · by_cases same : q = p
    · subst same
      rw [update_self] at free
      exact idle free runnable
    · rw [update_of_ne same] at free
      simp only [others q same] at runnable ⊢
      exact proper.idle q free runnable
  · by_cases same : q = p
    · subst same
      exact empty unused
    · simp only [others q same] at unused ⊢
      exact proper.empty q unused

theorem ProcHolds.setOther {procs : Proc → ProcEntry} (proper : ProcHolds holds procs) (mine : holds p = some h) {np : Proc}
    {entry : ProcEntry} {child : Option Child} (idle : holds np = none)
    (unclaimed : ∀ q k c, q ≠ p → holds q = some k → k.child = some c → c.proc ≠ np)
    (made : ∀ c, child = some c → c.proc = np ∧ entry.state = .EMBRYO ∧ entry.ofile = c.ofile ∧ entry.cwd = c.cwd ∨
      c.proc ≠ np ∧ h.child = some c)
    (runnable : entry.state = .RUNNABLE → entry.cwd ≠ none)
    (empty : entry.state = .UNUSED ∨ entry.state = .ZOMBIE → entry.ofile = (fun _ => none) ∧ entry.cwd = none)
    (same : h'.ofile = h.ofile ∧ h'.cwd = h.cwd ∧ h'.child = child) :
    ProcHolds (update holds p (some h')) (update procs np entry) := by
  have notMe := ne_of_idle mine idle
  have mineOr {q : Proc} {k : Hold} (isK : update holds p (some h') q = some k) : q = p ∧ k = h' ∨ q ≠ p ∧ holds q = some k := by
    by_cases isP : q = p
    · subst isP
      rw [update_self] at isK
      cases isK
      exact .inl ⟨rfl,rfl⟩
    · rw [update_of_ne isP] at isK
      exact .inr ⟨isP,isK⟩
  -- no call but this one has the entry as its child
  have childOf {q : Proc} {k : Hold} {c : Child} (isK : update holds p (some h') q = some k) (isC : k.child = some c) :
      q = p ∧ c.proc = np ∨ c.proc ≠ np ∧ ∃ k₀, holds q = some k₀ ∧ k₀.child = some c := by
    rcases mineOr isK with ⟨rfl,rfl⟩ | ⟨other,isK⟩
    · rcases made c (same.2.2 ▸ isC) with ⟨isNp,_⟩ | ⟨notNp,was⟩
      · exact .inl ⟨rfl,isNp⟩
      · exact .inr ⟨notNp,h,mine,was⟩
    · exact .inr ⟨unclaimed q k c other isK isC,k,isK,isC⟩
  refine ⟨fun q k isK => ?_,fun q k c isK isC => ?_,fun q r k l c d isK isL isC isD both => ?_,fun q free => ?_,?_⟩
  · rcases mineOr isK with ⟨rfl,rfl⟩ | ⟨other,isK⟩
    · rw [update_of_ne (Ne.symm notMe),same.1,same.2.1]
      exact proper.own q h mine
    · have notNp : q ≠ np := by
        rintro rfl
        rw [idle] at isK
        cases isK
      rw [update_of_ne notNp]
      exact proper.own q k isK
  · rcases childOf isK isC with ⟨rfl,isNp⟩ | ⟨notNp,k₀,was,isC⟩
    · rw [update_self] at isK
      cases isK
      rcases made c (same.2.2 ▸ isC) with ⟨_,made⟩ | ⟨notNp,_⟩
      · rwa [isNp,update_self]
      · exact absurd isNp notNp
    · rw [update_of_ne notNp]
      exact proper.child q k₀ c was isC
  · rcases childOf isK isC with ⟨isP,isNp⟩ | ⟨notNp,k₀,was,isC⟩ <;> rcases childOf isL isD with ⟨isP',isNp'⟩ | ⟨notNp',l₀,was',isD⟩
    · rw [isP,isP']
    · exact absurd (both ▸ isNp) notNp'
    · exact absurd (both.trans isNp') notNp
    · exact proper.apart q r k₀ l₀ c d was was' isC isD both
  · have other : q ≠ p := by
      rintro rfl
      rw [update_self] at free
      cases free
    rw [update_of_ne other] at free
    by_cases isNp : q = np
    · subst isNp
      rw [update_self]
      exact runnable
    · rw [update_of_ne isNp]
      exact proper.idle q free
  · exact (forall_update_iff procs fun _ entry =>
      entry.state = .UNUSED ∨ entry.state = .ZOMBIE → entry.ofile = (fun _ => none) ∧ entry.cwd = none).mpr ⟨empty,fun q _ => proper.empty q⟩

structure SameRefs (s s' : State) : Prop where
  ftable : s'.ftable = s.ftable
  pipes : s'.pipes = s.pipes
  npipes : s'.npipes = s.npipes
  ref : ∀ e, (s'.icache e).ref = (s.icache e).ref
  procs : ∀ q, (s'.procs q).state = (s.procs q).state ∧ (s'.procs q).ofile = (s.procs q).ofile ∧ (s'.procs q).cwd = (s.procs q).cwd

theorem SameRefs.refs (same : SameRefs s s') (refs : Refs holds s) : Refs holds s' := by
  have held {X : Type} (part : Hold → X) (at_ : ∀ q, part (s'.atRest q) = part (s.atRest q)) :
      s'.held holds part = s.held holds part := by
    funext q
    cases idle : holds q with
    | none => rw [held_idle _ idle,held_idle _ idle,at_ q]
    | some k => rw [held_mine idle,held_mine idle]
  have files := held Hold.files fun q => by simp only [atRest,(same.procs q).2.1]
  have inodes := held Hold.inodes fun q => by simp only [atRest,(same.procs q).2.2]
  refine ⟨?_,?_,?_,refs.procs.congr same.procs⟩
  · rw [same.ftable,files,held Hold.fresh fun _ => rfl]
    exact refs.files
  · rw [same.ftable,inodes]
    simp only [same.ref]
    exact refs.inodes
  · rw [same.pipes,same.npipes,same.ftable,held Hold.ends fun _ => rfl,held Hold.pages fun _ => rfl]
    exact refs.pipes

theorem SameRefs.refl (s : State) : SameRefs s s := ⟨rfl,rfl,rfl,fun _ => rfl,fun _ => ⟨rfl,rfl,rfl⟩⟩

theorem SameRefs.setEntry {e : Entry} {c : Cached} (ref : c.ref = (s.icache e).ref) : SameRefs s (s.setEntry e c) := by
  refine ⟨rfl,rfl,rfl,?_,fun _ => ⟨rfl,rfl,rfl⟩⟩
  exact (forall_update_iff s.icache fun e' c' => c'.ref = (s.icache e').ref).mpr ⟨ref,fun _ _ => rfl⟩

theorem SameRefs.setInode (i : Nat) (d : Inode) : SameRefs s (s.setInode i d) :=
  ⟨rfl,rfl,rfl,fun _ => rfl,fun _ => ⟨rfl,rfl,rfl⟩⟩

theorem refs_update {l : Option Hold}
    (others : ∀ q, q ≠ p → (s'.procs q).ofile = (s.procs q).ofile ∧ (s'.procs q).cwd = (s.procs q).cwd)
    (files : FileRefs s'.ftable (update (s.held holds Hold.files) p (l.getD (s'.atRest p)).files)
      (update (s.held holds Hold.fresh) p (l.getD (s'.atRest p)).fresh))
    (inodes : InodeRefs (fun e => (s'.icache e).ref) s'.ftable (update (s.held holds Hold.inodes) p (l.getD (s'.atRest p)).inodes))
    (pipes : PipeRefs s'.pipes s'.npipes s'.ftable (update (s.held holds Hold.ends) p (l.getD (s'.atRest p)).ends)
      (update (s.held holds Hold.pages) p (l.getD (s'.atRest p)).pages))
    (procs : ProcHolds (update holds p l) s'.procs) : Refs (update holds p l) s' := by
  refine ⟨?_,?_,?_,procs⟩
  · rw [held_update s s' fun q other => by simp only [atRest,others q other],held_update s s' fun _ _ => rfl]
    exact files
  · rw [held_update s s' fun q other => by simp only [atRest,others q other]]
    exact inodes
  · rw [held_update s s' fun _ _ => rfl,held_update s s' fun _ _ => rfl]
    exact pipes

theorem Refs.step (refs : Refs holds s) (mine : holds p = some h) (procs : s'.procs = s.procs)
    (ofile : h'.ofile = h.ofile) (cwd : h'.cwd = h.cwd) (child : h'.child = h.child)
    (files : FileRefs s'.ftable (update (s.held holds Hold.files) p h'.files)
      (update (s.held holds Hold.fresh) p h'.fresh))
    (inodes : InodeRefs (fun e => (s'.icache e).ref) s'.ftable (update (s.held holds Hold.inodes) p h'.inodes))
    (pipes : PipeRefs s'.pipes s'.npipes s'.ftable (update (s.held holds Hold.ends) p h'.ends)
      (update (s.held holds Hold.pages) p h'.pages)) :
    Refs (update holds p (some h')) s' := by
  obtain ⟨runnable,own⟩ := refs.procs.own p h mine
  refine refs_update (s := s) (fun q _ => by rw [procs]; exact ⟨rfl,rfl⟩) files inodes pipes ?_
  rw [procs]
  refine refs.procs.changed (fun _ _ => ⟨rfl,rfl,rfl⟩) (by rw [runnable]; exact nofun) ?_ ?_ nofun (refs.procs.empty p)
  · rintro _ ⟨⟩
    rw [ofile,cwd]
    exact ⟨runnable,own⟩
  · rintro _ c ⟨⟩ isC
    exact ⟨h,mine,child ▸ isC⟩

theorem setEntry_ref (s : State) (e : Entry) (c : Cached) :
    (fun e' => ((s.setEntry e c).icache e').ref) = update (fun e' => (s.icache e').ref) e c.ref :=
  funext fun e' => apply_update (fun _ c => c.ref) s.icache e c e'

theorem freeFile_spec {ftable : File → OpenFile} {f : File} (found : freeFile ftable = some f) : (ftable f).ref = 0 := by
  simpa using List.find?_some found

theorem ProcHolds.idle_of_state {procs : Proc → ProcEntry} (proper : ProcHolds holds procs) (np : Proc)
    (state : (procs np).state ≠ .RUNNABLE) : holds np = none := by
  cases isK : holds np with
  | none => rfl
  | some k => exact absurd (proper.own np k isK).1 state

theorem ProcHolds.idle_child {procs : Proc → ProcEntry} (proper : ProcHolds holds procs) (mine : holds p = some h) {c : Child}
    (child : h.child = some c) : holds c.proc = none := by
  refine proper.idle_of_state _ ?_
  rw [(proper.child p h c mine child).1]
  exact nofun

theorem ProcHolds.unclaimed {procs : Proc → ProcEntry} (proper : ProcHolds holds procs) (mine : holds p = some h) {c : Child}
    (child : h.child = some c) : ∀ q k d, q ≠ p → holds q = some k → k.child = some d → d.proc ≠ c.proc :=
  fun q k d other isK isD same => other (proper.apart q p k h d c isK mine isD child same)

theorem unusedProc_spec {procs : Proc → ProcEntry} {np : Proc} (found : unusedProc procs = some np) : (procs np).state = .UNUSED := by
  simpa using List.find?_some found

theorem emptyEntry_spec {icache : Entry → Cached} {e : Entry} (found : emptyEntry icache = some e) : (icache e).ref = 0 := by
  simpa using List.find?_some found

theorem handle_same {op : SysOp} {a : op.Ans} (done : handle p op s = .ok (a,s')) : match op with
    | .lock _ | .load _ | .update _ _ | .writeEntry _ _ _ | .unlock _ | .free _ | .claim _ _ | .setParent _ | .begin_op | .end_op
    | .choose | .inum _ | .inode _ | .dirents _ | .ofile _ | .cwd | .isInit => SameRefs s s'
    | _ => True := by
  cases op with
  | begin_op => cases done; exact .refl s
  | end_op => cases done; exact .refl s
  | choose => cases done; exact .refl s
  | inum e => cases done; exact .refl s
  | inode e => cases done; exact .refl s
  | dirents e => cases done; exact .refl s
  | ofile fd => cases done; exact .refl s
  | cwd => cases done; exact .refl s
  | isInit => cases done; exact .refl s
  | lock e =>
    simp only [handle] at done
    split at done
    · cases done
    · split at done
      · cases done
      · cases done
        exact .setEntry rfl
  | load e =>
    simp only [handle] at done
    split at done
    · cases done
      exact .refl s
    · split at done
      · cases done
      · cases done
        exact .setEntry rfl
  | update e f => cases done; exact .setInode ..
  | writeEntry e slot de =>
    simp only [handle] at done
    split at done
    · cases done
      exact .refl s
    · split at done
      · cases done
      · cases done
        exact .setInode ..
  | unlock e =>
    simp only [handle] at done
    split at done
    · cases done
    · cases done
      exact .setEntry rfl
  | free e => cases done; exact .setInode ..
  | claim i type =>
    simp only [handle] at done
    split at done
    · cases done
      exact .setInode ..
    · cases done
      exact .refl s
  | setParent np =>
    cases done
    refine ⟨rfl,rfl,rfl,fun _ => rfl,?_⟩
    exact (forall_update_iff s.procs fun q entry => entry.state = (s.procs q).state ∧ entry.ofile = (s.procs q).ofile ∧
      entry.cwd = (s.procs q).cwd).mpr ⟨⟨rfl,rfl,rfl⟩,fun _ _ => ⟨rfl,rfl,rfl⟩⟩
  | _ => trivial

end

section
variable {s s' : State} {holds : Proc → Option Hold} {p : Proc} {h h' : Hold}
variable (refs : Refs holds s) (mine : holds p = some h)
include refs mine

theorem Refs.get {e : Entry} {c : Cached} (ref : c.ref = (s.icache e).ref + 1) :
    Refs (update holds p (some (h.addInode e))) (s.setEntry e c) := by
  refine refs.step mine rfl rfl rfl rfl ?_ ?_ ?_
  · simp only [Hold.addInode,held_keep _ mine]
    exact refs.files
  · rw [setEntry_ref,ref]
    have got := refs.inodes.get (e := e) (p := p)
    rwa [held_mine mine] at got
  · simp only [Hold.addInode,held_keep _ mine]
    exact refs.pipes

theorem Refs.put {e : Entry} {c : Cached} (held : e ∈ h.inodes)
    (ref : c.ref = (s.icache e).ref - 1) : Refs (update holds p (some (h.dropInode e))) (s.setEntry e c) := by
  refine refs.step mine rfl rfl rfl rfl ?_ ?_ ?_
  · simp only [Hold.dropInode,held_keep _ mine]
    exact refs.files
  · rw [setEntry_ref,ref]
    have put := refs.inodes.put (e := e) (p := p)
    rw [held_mine mine] at put
    exact put held
  · simp only [Hold.dropInode,held_keep _ mine]
    exact refs.pipes

/-- An operation on one file. What it takes from the file the process gets, and the other way. -/
theorem Refs.setOpen {f : File} {file : OpenFile}
    (ofile : h'.ofile = h.ofile) (cwd : h'.cwd = h.cwd) (child : h'.child = h.child) (pages : h'.pages = h.pages)
    (files : FileRefs (update s.ftable f file) (update (s.held holds Hold.files) p h'.files)
      (update (s.held holds Hold.fresh) p h'.fresh))
    (inodes : ∀ e, (if file.kind = .FD_INODE e then 1 else 0) + h'.inodes.count e =
      (if (s.ftable f).kind = .FD_INODE e then 1 else 0) + h.inodes.count e)
    (ends : ∀ id w, (if file.kind = .FD_PIPE id w then 1 else 0) + h'.ends.count (id,w) =
      (if (s.ftable f).kind = .FD_PIPE id w then 1 else 0) + h.ends.count (id,w)) :
    Refs (update holds p (some h')) (s.setOpen f file) := by
  refine refs.step mine rfl ofile cwd child files ?_ ?_
  · exact refs.inodes.move (by rwa [held_mine mine])
  · rw [pages,held_keep _ mine]
    exact refs.pipes.move (by rwa [held_mine mine])

theorem Refs.filealloc {f : File} (free : (s.ftable f).ref = 0) :
    Hold.Post .filealloc h (some f) (h.allocFile f) ∧
      Refs (update holds p (some (h.allocFile f))) (s.setOpen f { s.ftable f with ref := 1 }) := by
  have absent : f ∉ h.files := by
    have none := refs.files.notMem (p := p) free
    rwa [held_mine mine] at none
  refine ⟨⟨rfl,absent,fun here => absent ?_⟩,refs.setOpen mine rfl rfl rfl rfl ?_ (fun _ => rfl) (fun _ _ => rfl)⟩
  · have held := refs.files.held p f (by rwa [held_mine mine])
    rwa [held_mine mine] at held
  · have alloc := refs.files.alloc (p := p) free
    rwa [held_mine mine,held_mine mine] at alloc

theorem Refs.filedup {f : File} (held : f ∈ h.files) :
    Refs (update holds p (some { h with files := f ::ₘ h.files }))
      (s.setOpen f { s.ftable f with ref := (s.ftable f).ref + 1 }) := by
  refine refs.setOpen mine rfl rfl rfl rfl ?_ (fun _ => rfl) (fun _ _ => rfl)
  have dup := refs.files.dup (p := p) (f := f) (by rwa [held_mine mine])
  rwa [held_mine mine,← held_keep Hold.fresh mine] at dup

theorem Refs.closeFile {f : File} (held : f ∈ h.files) {last : Option FileKind}
    (done : handle p (.closeFile f) s = .ok (last,s')) :
    ∃ h', Hold.Post (.closeFile f) h last h' ∧ Refs (update holds p (some h')) s' := by
  have positive := refs.files.ref_pos (p := p) (f := f) (by rwa [held_mine mine])
  have close (kind : FileKind) := refs.files.close (p := p) (f := f) (by rwa [held_mine mine]) kind
  simp only [held_mine mine] at close
  simp only [handle] at done
  rw [if_neg (by omega)] at done
  split at done
  · cases done
    refine ⟨h.dropFile f,rfl,refs.setOpen mine rfl rfl rfl rfl ?_ (fun _ => rfl) (fun _ _ => rfl)⟩
    exact close _ (.inr ⟨by omega,rfl⟩)
  · have one : (s.ftable f).ref = 1 := by omega
    have closed := close _ (.inl ⟨one,rfl⟩)
    rw [one] at closed
    simp only [Except.ok.injEq,Prod.mk.injEq] at done
    obtain ⟨rfl,rfl⟩ := done
    cases kind : (s.ftable f).kind with
    | FD_NONE =>
      refine ⟨h.dropFile f,rfl,refs.setOpen mine rfl rfl rfl rfl closed (fun _ => ?_) (fun _ _ => ?_)⟩
      · rw [kind]
        rfl
      · rw [kind]
        rfl
    | FD_PIPE pipe writable =>
      refine ⟨{ h.dropFile f with ends := (pipe,writable) ::ₘ h.ends },rfl,
        refs.setOpen mine rfl rfl rfl rfl closed (fun _ => ?_) (fun id w => ?_)⟩
      · rw [kind]
        rfl
      · rw [kind,Multiset.count_cons]
        simp only [reduceCtorEq,if_false,FileKind.FD_PIPE.injEq,Prod.mk.injEq,eq_comm]
        omega
    | FD_INODE e =>
      refine ⟨(h.dropFile f).addInode e,rfl,refs.setOpen mine rfl rfl rfl rfl closed (fun e' => ?_) (fun id w => ?_)⟩
      · rw [kind]
        simp only [Hold.addInode,Hold.dropFile,Multiset.count_cons,reduceCtorEq,if_false,FileKind.FD_INODE.injEq,eq_comm]
        omega
      · rw [kind]
        rfl

theorem Refs.setFile {f : File} {kind : FileKind} (pre : Hold.Pre (.setFile f kind) h) :
    ∃ h', Hold.Post (.setFile f kind) h () h' ∧
      Refs (update holds p (some h')) (s.setOpen f { s.ftable f with kind := kind }) := by
  obtain ⟨fresh,held⟩ := pre
  have before : (s.ftable f).kind = .FD_NONE := refs.files.typeless p f (by rwa [held_mine mine])
  have set := refs.files.set (p := p) (f := f) (by rwa [held_mine mine]) kind
  rw [held_mine mine,← held_keep Hold.files mine] at set
  cases kind with
  | FD_NONE =>
    refine ⟨_,rfl,refs.setOpen mine rfl rfl rfl rfl set (fun _ => ?_) (fun _ _ => ?_)⟩
    · rw [before]
    · rw [before]
  | FD_PIPE pipe writable =>
    refine ⟨_,rfl,refs.setOpen mine rfl rfl rfl rfl set (fun _ => ?_) (fun id w => ?_)⟩
    · rw [before]
      rfl
    · have back := congrArg (Multiset.count (id,w)) (Multiset.cons_erase held)
      rw [Multiset.count_cons] at back
      simp only [before,reduceCtorEq,if_false,FileKind.FD_PIPE.injEq,Prod.mk.injEq,eq_comm] at back ⊢
      omega
  | FD_INODE e =>
    refine ⟨_,rfl,refs.setOpen mine rfl rfl rfl rfl set (fun e' => ?_) (fun _ _ => ?_)⟩
    · have back := congrArg (Multiset.count e') (Multiset.cons_erase held)
      rw [Multiset.count_cons] at back
      simp only [Hold.dropInode,before,reduceCtorEq,if_false,FileKind.FD_INODE.injEq,eq_comm] at back ⊢
      omega
    · rw [before]
      rfl

theorem Refs.setPipe {pipes : Nat → Pipe} {npipes : Nat}
    {ends : Multiset (Nat × Bool)} {pages : Multiset Nat}
    (after : PipeRefs pipes npipes s.ftable (update (s.held holds Hold.ends) p ends)
      (update (s.held holds Hold.pages) p pages)) :
    Refs (update holds p (some { h with ends := ends, pages := pages })) { s with pipes := pipes, npipes := npipes } := by
  refine refs.step mine rfl rfl rfl rfl ?_ ?_ after
  · simp only [held_keep _ mine]
    exact refs.files
  · simp only [held_keep _ mine]
    exact refs.inodes

theorem Refs.kalloc :
    Refs (update holds p (some { h with pages := s.npipes ::ₘ h.pages }))
      { s.setPipe s.npipes ⟨false,false,0⟩ with npipes := s.npipes + 1 } := by
  have alloc := refs.pipes.alloc (p := p)
  rw [held_mine mine,← held_keep Hold.ends mine] at alloc
  exact refs.setPipe mine alloc

theorem Refs.kfree {pipe : Nat} (held : pipe ∈ h.pages) :
    Refs (update holds p (some { h with pages := h.pages.erase pipe }))
      (s.setPipe pipe { s.pipes pipe with frees := (s.pipes pipe).frees + 1 }) := by
  have free := refs.pipes.free (show pipe ∈ s.held holds Hold.pages p by rwa [held_mine mine])
  rw [held_mine mine,← held_keep Hold.ends mine] at free
  exact refs.setPipe mine free

theorem Refs.openPipe {pipe : Nat} (held : pipe ∈ h.pages) :
    Refs (update holds p (some { h with pages := h.pages.erase pipe, ends := (pipe,true) ::ₘ (pipe,false) ::ₘ h.ends }))
      (s.setPipe pipe { s.pipes pipe with readopen := true, writeopen := true }) := by
  have opened := refs.pipes.opened (show pipe ∈ s.held holds Hold.pages p by rwa [held_mine mine])
  rw [held_mine mine,held_mine mine] at opened
  exact refs.setPipe mine opened

theorem Refs.closePipe {pipe : Nat} {w : Bool} (held : (pipe,w) ∈ h.ends) :
    Refs (update holds p (some { h with
        ends := h.ends.erase (pipe,w)
        pages := if !((s.pipes pipe).close w).readopen && !((s.pipes pipe).close w).writeopen then pipe ::ₘ h.pages else h.pages }))
      (s.setPipe pipe ((s.pipes pipe).close w)) := by
  have closed := refs.pipes.closed (show (pipe,w) ∈ s.held holds Hold.ends p by rwa [held_mine mine])
  rw [held_mine mine,held_mine mine] at closed
  exact refs.setPipe mine closed

theorem Refs.setOwn {ofile : Fd → Option File} {cwd : Option Entry} :
    Refs (update holds p (some { h with ofile := ofile, cwd := cwd }))
      (s.setProc p { s.procs p with ofile := ofile, cwd := cwd }) := by
  have runnable := (refs.procs.own p h mine).1
  have entry {q : Proc} (other : q ≠ p) : (s.setProc p { s.procs p with ofile := ofile, cwd := cwd }).procs q = s.procs q :=
    update_of_ne other ..
  have mineNow : (s.setProc p { s.procs p with ofile := ofile, cwd := cwd }).procs p = { s.procs p with ofile := ofile, cwd := cwd } :=
    update_self ..
  refine refs_update (s := s) (fun q other => by rw [entry other]; exact ⟨rfl,rfl⟩) ?_ ?_ ?_ (refs.procs.changed
    (fun q other => by rw [entry other]; exact ⟨rfl,rfl,rfl⟩) (by rw [runnable]; exact nofun) ?_ ?_ nofun fun unused => ?_)
  · simp only [Option.getD_some,held_keep _ mine]
    exact refs.files
  · simp only [Option.getD_some,held_keep _ mine]
    exact refs.inodes
  · simp only [Option.getD_some,held_keep _ mine]
    exact refs.pipes
  · rintro _ ⟨⟩
    rw [mineNow]
    exact ⟨runnable,rfl,rfl⟩
  · rintro _ c ⟨⟩ isC
    exact ⟨h,mine,isC⟩
  · rw [mineNow,runnable] at unused
    rcases unused with unused | unused <;> cases unused

theorem Refs.setOther {np : Proc} {entry : ProcEntry} {n : Nat} (idle : holds np = none)
    (files : FileRefs s.ftable (update (update (s.held holds Hold.files) p h'.files) np (slots entry.ofile))
      (update (s.held holds Hold.fresh) p h'.fresh))
    (inodes : InodeRefs (fun e => (s.icache e).ref) s.ftable
      (update (update (s.held holds Hold.inodes) p h'.inodes) np (entry.cwd.elim 0 fun e => {e})))
    (rest : h'.ends = h.ends ∧ h'.pages = h.pages)
    (procs : ProcHolds (update holds p (some h')) (update s.procs np entry)) :
    Refs (update holds p (some h')) { s.setProc np entry with nextpid := n } := by
  have notMe := ne_of_idle mine idle
  have resting : update (update holds p (some h')) np none = update holds p (some h') :=
    update_eq_self_iff.mpr (by rw [update_of_ne notMe,idle])
  have after {X : Type} (part : Hold → X) (others : ∀ q, q ≠ np → part ((s.setProc np entry).atRest q) = part (s.atRest q)) :
      ({ s.setProc np entry with nextpid := n } : State).held (update holds p (some h')) part =
        update (update (s.held holds part) p (part h')) np (part ((s.setProc np entry).atRest np)) := by
    rw [← resting]
    refine (held_update s _ others).trans ?_
    rw [held_update s s fun _ _ => rfl]
    rfl
  have entryAt {q : Proc} (other : q ≠ np) : (s.setProc np entry).procs q = s.procs q := update_of_ne other ..
  have entryNp : (s.setProc np entry).procs np = entry := update_self ..
  -- the parts in which a process at rest has nothing
  have nothing {X : Type} (part : Hold → X) {none : X} (zero : ∀ s : State, ∀ q, part (s.atRest q) = none) :
      ({ s.setProc np entry with nextpid := n } : State).held (update holds p (some h')) part =
        update (s.held holds part) p (part h') := by
    rw [after part fun q _ => by rw [zero,zero],zero]
    refine update_eq_self_iff.mpr ?_
    rw [update_of_ne notMe,held_idle _ idle,zero]
  refine ⟨?_,?_,?_,procs⟩
  · rw [after Hold.files fun q other => by simp only [atRest,entryAt other],nothing Hold.fresh fun _ _ => rfl]
    simp only [atRest,entryNp]
    exact files
  · rw [after Hold.inodes fun q other => by simp only [atRest,entryAt other]]
    simp only [atRest,entryNp]
    exact inodes
  · rw [nothing Hold.ends fun _ _ => rfl,nothing Hold.pages fun _ _ => rfl,rest.1,rest.2,held_keep _ mine,held_keep _ mine]
    exact refs.pipes

theorem Refs.setState {np : Proc} {entry : ProcEntry} {n : Nat} {child : Option Child}
    (idle : holds np = none) (ofile : entry.ofile = (s.procs np).ofile) (cwd : entry.cwd = (s.procs np).cwd)
    (procs : ProcHolds (update holds p (some { h with child := child })) (update s.procs np entry)) :
    Refs (update holds p (some { h with child := child })) { s.setProc np entry with nextpid := n } := by
  refine refs.setOther mine idle ?_ ?_ ⟨rfl,rfl⟩ procs
  · simp only [held_keep _ mine,ofile,held_files idle]
    exact refs.files
  · simp only [held_keep _ mine,cwd,held_inodes idle]
    exact refs.inodes

theorem Refs.allocproc {np : Proc} (unused : (s.procs np).state = .UNUSED) :
    Refs (update holds p (some { h with child := some ⟨np,fun _ => none,none⟩ }))
      { s.setProc np { s.procs np with state := .EMBRYO, pid := s.nextpid } with nextpid := s.nextpid + 1 } := by
  have idle := refs.procs.idle_of_state np (by rw [unused]; exact nofun)
  obtain ⟨noFiles,noCwd⟩ := refs.procs.empty np (.inl unused)
  refine refs.setState mine idle rfl rfl (refs.procs.setOther mine idle ?_ ?_ nofun ?_ ⟨rfl,rfl,rfl⟩)
  · intro q k c _ isK isC same
    have embryo := (refs.procs.child q k c isK isC).1
    rw [same,unused] at embryo
    cases embryo
  · rintro _ ⟨⟩
    exact .inl ⟨rfl,rfl,noFiles,noCwd⟩
  · rintro (zombie | zombie) <;> cases zombie

theorem Refs.unalloc {np : Proc}
    (child : h.child = some ⟨np,fun _ => none,none⟩) :
    Refs (update holds p (some { h with child := none })) (s.setProc np { s.procs np with state := .UNUSED }) := by
  obtain ⟨-,noFiles,noCwd⟩ := refs.procs.child p h _ mine child
  have idle := refs.procs.idle_child mine child
  refine refs.setState mine idle rfl rfl
    (refs.procs.setOther mine idle (refs.procs.unclaimed mine child) ?_ nofun (fun _ => ⟨noFiles,noCwd⟩) ⟨rfl,rfl,rfl⟩)
  exact nofun

theorem Refs.runnable {c : Child} (child : h.child = some c) (cwd : c.cwd ≠ none) :
    Refs (update holds p (some { h with child := none })) (s.setProc c.proc { s.procs c.proc with state := .RUNNABLE }) := by
  obtain ⟨-,-,isCwd⟩ := refs.procs.child p h _ mine child
  have idle := refs.procs.idle_child mine child
  refine refs.setState mine idle rfl rfl
    (refs.procs.setOther mine idle (refs.procs.unclaimed mine child) ?_ (fun _ => ?_) ?_ ⟨rfl,rfl,rfl⟩)
  · exact nofun
  · rw [isCwd]
    exact cwd
  · rintro (zombie | zombie) <;> cases zombie

theorem Refs.reap {c : Proc} (zombie : (s.procs c).state = .ZOMBIE) :
    Refs (update holds p (some h)) (s.setProc c { s.procs c with state := .UNUSED, pid := 0, parent := none }) := by
  have idle := refs.procs.idle_of_state c (by rw [zombie]; exact nofun)
  have notChild {q : Proc} {k : Hold} {d : Child} (isK : holds q = some k) (isD : k.child = some d) : d.proc ≠ c := by
    intro same
    have embryo := (refs.procs.child q k d isK isD).1
    rw [same,zombie] at embryo
    cases embryo
  show Refs (update holds p (some { h with child := h.child })) _
  exact refs.setState mine idle rfl rfl (refs.procs.setOther mine idle (fun q k d _ isK isD => notChild isK isD)
    (fun d isD => .inr ⟨notChild mine isD,isD⟩) nofun (fun _ => refs.procs.empty c (.inr zombie)) ⟨rfl,rfl,rfl⟩)

theorem Refs.giveFile {c : Child} {fd : Fd} {f : File} (held : f ∈ h.files)
    (child : h.child = some c) (free : c.ofile fd = none) :
    Refs (update holds p (some { h.dropFile f with child := some { c with ofile := update c.ofile fd (some f) } }))
      (s.setProc c.proc { s.procs c.proc with ofile := update (s.procs c.proc).ofile fd (some f) }) := by
  obtain ⟨embryo,isFiles,isCwd⟩ := refs.procs.child p h _ mine child
  have idle := refs.procs.idle_child mine child
  have notMe := ne_of_idle mine idle
  refine refs.setOther mine idle ?_ ?_ ⟨rfl,rfl⟩
    (refs.procs.setOther mine idle (refs.procs.unclaimed mine child) ?_ ?_ ?_ ⟨rfl,rfl,rfl⟩)
  · have give := refs.files.give (p := p) (f := f) (by rwa [held_mine mine]) notMe (held_idle _ idle)
    rw [held_mine mine,held_mine mine,held_idle _ idle] at give
    simp only [slots_fill (show (s.procs c.proc).ofile fd = none by rw [isFiles,free])]
    exact give
  · simp only [Hold.dropFile,held_keep _ mine,held_inodes idle]
    exact refs.inodes
  · rintro _ ⟨⟩
    exact .inl ⟨rfl,embryo,by rw [isFiles],isCwd⟩
  · intro runnable
    rw [embryo] at runnable
    cases runnable
  · rintro (zombie | zombie) <;> rw [embryo] at zombie <;> cases zombie

theorem Refs.giveCwd {c : Child} {e : Entry} (held : e ∈ h.inodes)
    (child : h.child = some c) (free : c.cwd = none) :
    Refs (update holds p (some { h.dropInode e with child := some { c with cwd := some e } }))
      (s.setProc c.proc { s.procs c.proc with cwd := some e }) := by
  obtain ⟨embryo,isFiles,isCwd⟩ := refs.procs.child p h _ mine child
  have idle := refs.procs.idle_child mine child
  have notMe := ne_of_idle mine idle
  refine refs.setOther mine idle ?_ ?_ ⟨rfl,rfl⟩
    (refs.procs.setOther mine idle (refs.procs.unclaimed mine child) ?_ ?_ ?_ ⟨rfl,rfl,rfl⟩)
  · simp only [Hold.dropInode,held_keep _ mine,held_files idle]
    exact refs.files
  · have give := refs.inodes.give (p := p) (e := e) (by rwa [held_mine mine]) notMe
    rw [held_mine mine,held_idle _ idle] at give
    simp only [atRest,isCwd,free] at give
    exact give
  · rintro _ ⟨⟩
    exact .inl ⟨rfl,embryo,isFiles,rfl⟩
  · intro _
    simp
  · rintro (zombie | zombie) <;> rw [embryo] at zombie <;> cases zombie

theorem Refs.iget {inum : Nat} {e : Entry} (done : handle p (.iget inum) s = .ok (e,s')) :
    Refs (update holds p (some (h.addInode e))) s' := by
  simp only [handle] at done
  split at done
  · cases done
    exact refs.get mine rfl
  · split at done
    · rename_i found
      have zero := emptyEntry_spec found
      cases done
      exact refs.get mine (by rw [zero]; rfl)
    · cases done

theorem Refs.stay (same : SameRefs s s') : Refs (update holds p (some h)) s' := by
  rw [← mine,update_eq_self]
  exact same.refs refs

/-- Every operation keeps the counts, and leaves its caller what the contract says. -/
theorem Refs.answers {op : SysOp} {a : op.Ans} (pre : Hold.Pre op h)
    (done : handle p op s = .ok (a,s')) : ∃ h', Hold.Post op h a h' ∧ Refs (update holds p (some h')) s' := by
  cases op with
  | begin_op => exact ⟨h,rfl,refs.stay mine (handle_same done)⟩
  | end_op => exact ⟨h,rfl,refs.stay mine (handle_same done)⟩
  | choose => exact ⟨h,rfl,refs.stay mine (handle_same done)⟩
  | iget inum => exact ⟨_,rfl,refs.iget mine done⟩
  | idup e =>
    cases done
    exact ⟨_,rfl,refs.get mine rfl⟩
  | lock e => exact ⟨h,rfl,refs.stay mine (handle_same done)⟩
  | load e => exact ⟨h,rfl,refs.stay mine (handle_same done)⟩
  | inum e => exact ⟨h,rfl,refs.stay mine (handle_same done)⟩
  | inode e => exact ⟨h,rfl,refs.stay mine (handle_same done)⟩
  | dirents e => exact ⟨h,rfl,refs.stay mine (handle_same done)⟩
  | update e f => exact ⟨h,rfl,refs.stay mine (handle_same done)⟩
  | writeEntry e slot de => exact ⟨h,rfl,refs.stay mine (handle_same done)⟩
  | unlock e => exact ⟨h,rfl,refs.stay mine (handle_same done)⟩
  | putBegin e =>
    simp only [handle] at done
    split at done
    · split at done
      · cases done
      · cases done
        exact ⟨h,rfl,refs.stay mine (.setEntry rfl)⟩
    · cases done
      exact ⟨_,rfl,refs.put mine pre rfl⟩
  | free e => exact ⟨h,rfl,refs.stay mine (handle_same done)⟩
  | putEnd e =>
    cases done
    exact ⟨_,rfl,refs.put mine pre rfl⟩
  | claim i type => exact ⟨h,rfl,refs.stay mine (handle_same done)⟩
  | filealloc =>
    simp only [handle] at done
    split at done
    · rename_i found
      cases done
      exact ⟨_,refs.filealloc mine (freeFile_spec found)⟩
    · cases done
      exact ⟨h,rfl,refs.stay mine (.refl s)⟩
  | filedup f =>
    simp only [handle] at done
    split at done
    · cases done
    · cases done
      exact ⟨_,rfl,refs.filedup mine pre⟩
  | closeFile f => exact refs.closeFile mine pre done
  | setFile f kind =>
    cases done
    exact refs.setFile mine pre
  | kalloc =>
    simp only [handle] at done
    split at done
    · cases done
      exact ⟨_,rfl,refs.kalloc mine⟩
    · cases done
      exact ⟨h,rfl,refs.stay mine (.refl s)⟩
  | kfree pipe =>
    cases done
    exact ⟨_,rfl,refs.kfree mine pre⟩
  | openPipe pipe =>
    cases done
    exact ⟨_,rfl,refs.openPipe mine pre⟩
  | closePipe pipe writable =>
    cases done
    exact ⟨_,rfl,refs.closePipe mine pre⟩
  | ofile fd =>
    refine ⟨h,⟨rfl,?_⟩,refs.stay mine (handle_same done)⟩
    cases done
    rw [(refs.procs.own p h mine).2.1]
  | setOfile fd f =>
    cases done
    obtain ⟨-,isFiles,isCwd⟩ := refs.procs.own p h mine
    have same : { h with ofile := update h.ofile fd f } =
        { h with ofile := update (s.procs p).ofile fd f, cwd := (s.procs p).cwd } := by rw [isFiles,← isCwd]
    refine ⟨_,rfl,?_⟩
    rw [same]
    exact refs.setOwn mine
  | cwd =>
    refine ⟨h,⟨rfl,?_⟩,refs.stay mine (handle_same done)⟩
    cases done
    rw [(refs.procs.own p h mine).2.2]
  | setCwd ip =>
    cases done
    obtain ⟨-,isFiles,-⟩ := refs.procs.own p h mine
    have same : { h with cwd := ip } = { h with ofile := (s.procs p).ofile, cwd := ip } := by rw [← isFiles]
    refine ⟨_,rfl,?_⟩
    rw [same]
    exact refs.setOwn mine
  | isInit => exact ⟨h,rfl,refs.stay mine (handle_same done)⟩
  | allocproc =>
    simp only [handle] at done
    split at done
    · rename_i found
      cases done
      exact ⟨_,rfl,refs.allocproc mine (unusedProc_spec found)⟩
    · cases done
      exact ⟨h,rfl,refs.stay mine (.refl s)⟩
  | unalloc np =>
    cases done
    exact ⟨_,rfl,refs.unalloc mine pre⟩
  | setParent np => exact ⟨h,rfl,refs.stay mine (handle_same done)⟩
  | giveFile np fd f =>
    cases done
    obtain ⟨held,c,child,rfl,free⟩ := pre
    refine ⟨_,rfl,?_⟩
    rw [child]
    exact refs.giveFile mine held child free
  | giveCwd np e =>
    cases done
    obtain ⟨held,c,child,rfl,free⟩ := pre
    refine ⟨_,rfl,?_⟩
    rw [child]
    exact refs.giveCwd mine held child free
  | runnable np =>
    cases done
    obtain ⟨c,child,rfl,cwd⟩ := pre
    exact ⟨_,rfl,refs.runnable mine child cwd⟩
  | wait =>
    simp only [handle,wait] at done
    split at done
    · rename_i c found
      cases done
      have zombie := List.find?_some found
      simp only [decide_eq_true_eq] at zombie
      exact ⟨h,rfl,refs.reap mine zombie.2⟩
    · split at done
      · cases done
        exact ⟨h,rfl,refs.stay mine (.refl s)⟩
      · cases done
  | panic message => cases done

end

section
variable {s s' : State} {holds : Proc → Option Hold} {p : Proc} {h h' : Hold}

theorem Refs.begins (refs : Refs holds s) (idle : holds p = none) (runnable : (s.procs p).state = .RUNNABLE) :
    Rest (s.atRest p) ∧ Refs (update holds p (some (s.atRest p))) s := by
  obtain ⟨e,isCwd⟩ := Option.ne_none_iff_exists'.mp (refs.procs.idle p idle runnable)
  have same {X : Type} (part : Hold → X) : update (s.held holds part) p (part (s.atRest p)) = s.held holds part :=
    update_eq_self_iff.mpr (held_idle _ idle).symm
  refine ⟨⟨rfl,⟨e,isCwd,?_⟩,rfl,rfl,rfl,rfl⟩,refs_update (s := s) (fun _ _ => ⟨rfl,rfl⟩) ?_ ?_ ?_
    (refs.procs.changed (fun _ _ => ⟨rfl,rfl,rfl⟩) (by rw [runnable]; exact nofun) ?_ ?_ nofun (refs.procs.empty p))⟩
  · simp only [atRest,isCwd]
    rfl
  · rw [Option.getD_some,same,same]
    exact refs.files
  · rw [Option.getD_some,same]
    exact refs.inodes
  · rw [Option.getD_some,same,same]
    exact refs.pipes
  · rintro _ ⟨⟩
    exact ⟨runnable,rfl,rfl⟩
  · rintro _ c ⟨⟩ isC
    cases isC

/-- A call ends. What it holds is what its entry names, and the other entries keep their files and directories. -/
theorem Refs.leaves (refs : Refs holds s) (mine : holds p = some h) {procs : Proc → ProcEntry}
    (same : ∀ q, (procs q).ofile = (s.procs q).ofile ∧ (procs q).cwd = (s.procs q).cwd)
    (states : ∀ q, q ≠ p → (procs q).state = (s.procs q).state)
    (state : (procs p).state = .RUNNABLE ∧ h.cwd ≠ none ∨ (procs p).state = .ZOMBIE ∧ h.ofile = (fun _ => none) ∧ h.cwd = none)
    (files : h.files = slots h.ofile) (inodes : h.inodes = h.cwd.elim 0 fun e => {e}) (fresh : h.fresh = ∅) (ends : h.ends = 0)
    (pages : h.pages = 0) : Refs (update holds p none) { s with procs := procs } := by
  obtain ⟨runnable,ofile,cwd⟩ := refs.procs.own p h mine
  have after {X : Type} (part : Hold → X) (here : part (({ s with procs := procs } : State).atRest p) = part h) :
      update (s.held holds part) p (part (({ s with procs := procs } : State).atRest p)) = s.held holds part := by
    rw [here,held_keep _ mine]
  refine refs_update (s := s) (fun q _ => same q) ?_ ?_ ?_ (refs.procs.changed (fun q other => ⟨states q other,same q⟩)
    (by rw [runnable]; exact nofun) nofun nofun (fun _ isRunnable => ?_) fun unused => ?_)
  · rw [Option.getD_none,after Hold.files (by simp only [atRest,(same p).1]; rw [files,ofile]),after Hold.fresh fresh.symm]
    exact refs.files
  · rw [Option.getD_none,after Hold.inodes (by simp only [atRest,(same p).2]; rw [inodes,cwd])]
    exact refs.inodes
  · rw [Option.getD_none,after Hold.ends ends.symm,after Hold.pages pages.symm]
    exact refs.pipes
  · rcases state with ⟨-,some⟩ | ⟨isZombie,-⟩
    · rw [(same p).2,← cwd]
      exact some
    · rw [isZombie] at isRunnable
      cases isRunnable
  · rcases state with ⟨isRunnable,-⟩ | ⟨-,empty⟩
    · rw [isRunnable] at unused
      rcases unused with unused | unused <;> cases unused
    · rw [(same p).1,(same p).2,← ofile,← cwd]
      exact empty

theorem Refs.settles (refs : Refs holds s) (mine : holds p = some h) (rest : Rest h) : Refs (update holds p none) s := by
  obtain ⟨e,isCwd,only⟩ := rest.cwd
  refine refs.leaves mine (fun _ => ⟨rfl,rfl⟩) (fun _ _ => rfl) (.inl ⟨(refs.procs.own p h mine).1,?_⟩) rest.files ?_ rest.fresh
    rest.ends rest.pages
  · rw [isCwd]
    exact nofun
  · rw [only,isCwd]
    rfl

theorem Refs.exits (refs : Refs holds s) (mine : holds p = some h) (gone : Gone h) :
    Refs (update holds p none) (s.zombie p) := by
  refine refs.leaves mine (fun q => ?_) (fun q other => ?_) (.inr ⟨by simp,gone.ofile,gone.cwd⟩) ?_ ?_ gone.fresh gone.ends gone.pages
  · dsimp only
    split <;> split <;> exact ⟨rfl,rfl⟩
  · dsimp only
    rw [if_neg other]
    split <;> rfl
  · rw [gone.files,gone.ofile,slots_none]
  · rw [gone.inodes,gone.cwd]
    rfl

end

end Osce.Sys
