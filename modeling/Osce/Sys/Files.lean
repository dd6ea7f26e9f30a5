import Osce.Sys.Refs

/-!
Reference counting of open files, inodes and pipes over all runs.
-/
namespace Osce.Sys
open Osce.Lib Osce.Layout Prog Finset

def SysOp.panics : SysOp → List String
  | .iget _ => ["iget: no inodes"]
  | .lock _ => ["ilock"]
  | .load _ => ["ilock: no type"]
  | .writeEntry _ _ _ => ["balloc: out of blocks"]
  | .unlock _ => ["iunlock"]
  | .putBegin _ => ["iput busy"]
  | .filedup _ => ["filedup"]
  | .closeFile _ => ["fileclose"]
  | .panic message => [message]
  | _ => []

theorem handle_error {s : State} {p : Proc} {op : SysOp} {e : Stop} (stopped : handle p op s = .error e) :
    e = .sleep ∨ ∃ message ∈ op.panics, e = .panic message := by
  cases op with
  | wait =>
    simp only [handle,State.wait] at stopped
    split at stopped
    · cases stopped
    · split at stopped
      · cases stopped
      · cases stopped
        exact .inl rfl
  | lock e =>
    simp only [handle] at stopped
    split at stopped
    · cases stopped
      exact .inr ⟨_,List.mem_singleton_self _,rfl⟩
    · split at stopped
      · cases stopped
        exact .inl rfl
      · cases stopped
  | panic message =>
    cases stopped
    exact .inr ⟨_,List.mem_singleton_self _,rfl⟩
  | _ =>
    simp only [handle] at stopped
    repeat' split at stopped
    all_goals cases stopped
    all_goals exact .inr ⟨_,List.mem_singleton_self _,rfl⟩

def Miscounts (e : Stop) : Prop := e = .panic "filedup" ∨ e = .panic "fileclose"

theorem Refs.stops {holds : Proc → Option Hold} {s : State} {p : Proc} {h : Hold} {op : SysOp} {e : Stop} (refs : Refs holds s)
    (mine : holds p = some h) (pre : Hold.Pre op h) (stopped : handle p op s = .error e) : ¬ Miscounts e := by
  have held {f : File} (here : f ∈ h.files) : ¬ (s.ftable f).ref < 1 := by
    have positive := refs.files.ref_pos (p := p) (f := f) (by rwa [held_mine mine])
    omega
  intro wrong
  rcases handle_error stopped with rfl | ⟨message,here,rfl⟩
  · rcases wrong with wrong | wrong <;> cases wrong
  · have known : message ∈ ["filedup","fileclose"] := by
      rcases wrong with wrong | wrong <;> cases wrong <;> decide
    cases op with
    | filedup f =>
      simp only [handle,if_neg (held pre)] at stopped
      cases stopped
    | closeFile f =>
      simp only [handle,if_neg (held pre)] at stopped
      split at stopped <;> cases stopped
    | panic message' =>
      rw [List.mem_singleton.mp here] at known
      exact pre known
    | _ => simp_all [SysOp.panics]

theorem refs_kept : Keeps (rules handle) contract Refs Miscounts (fun _ c _ => c.Leaves) where
  begins ghosts s p c s' refs idle begun := by
    obtain ⟨-,runnable,rfl⟩ := begun
    obtain ⟨rest,refs'⟩ := refs.begins idle runnable
    exact ⟨s'.atRest p,refs',c.code_meets rest⟩
  answers ghosts s p h op a s' refs mine pre done := refs.answers mine pre done
  stops ghosts s p h op e refs mine pre stopped := refs.stops mine pre stopped
  ends ghosts s p c a h s' refs mine left ended := by
    cases ended
    cases c with
    | exit => exact refs.exits mine left
    | _ => exact refs.settles mine left
  moves ghosts s s' refs moved := by
    obtain ⟨answer,rfl⟩ := moved
    exact SameRefs.refs (s := s) ⟨rfl,rfl,rfl,fun _ => rfl,fun _ => ⟨rfl,rfl,rfl⟩⟩ refs

section
variable {s : State}

theorem total_kinds_eq (ftable : File → OpenFile) (kind : FileKind) :
    total (kinds ftable) kind = (univ.filter fun f => (ftable f).kind = kind).card := by
  rw [total,card_filter]
  refine sum_congr rfl fun f _ => ?_
  simp [kinds,Multiset.count_singleton,eq_comm]

theorem total_files_eq (s : State) (f : File) : total (s.held (fun _ => none) Hold.files) f =
    (univ.filter fun slot : Proc × Fd => (s.procs slot.1).ofile slot.2 = some f).card := by
  rw [total,card_filter,Fintype.sum_prod_type]
  refine sum_congr rfl fun p _ => ?_
  rw [held_idle _ rfl,← card_filter]
  exact count_slots _ f

theorem total_inodes_eq (s : State) (e : Entry) : total (s.held (fun _ => none) Hold.inodes) e =
    (univ.filter fun p => (s.procs p).cwd = some e).card := by
  rw [total,card_filter]
  refine sum_congr rfl fun p _ => ?_
  rw [held_idle _ rfl]
  cases isCwd : (s.procs p).cwd with
  | none => simp [State.atRest,isCwd]
  | some e' => simp [State.atRest,isCwd,Multiset.count_singleton,eq_comm]

theorem total_nothing {X : Type} [DecidableEq X] (s : State) (part : Hold → Multiset X) (none : ∀ p, part (s.atRest p) = 0) (x : X) :
    total (s.held (fun _ => Option.none) part) x = 0 := by
  rw [total]
  refine sum_eq_zero fun p _ => ?_
  rw [held_idle _ rfl,none p,Multiset.count_zero]

structure Counted (s : State) : Prop where
  file : ∀ f, (s.ftable f).ref = (Finset.univ.filter fun slot : Proc × Fd => (s.procs slot.1).ofile slot.2 = some f).card
  typeless : ∀ f, (s.ftable f).ref = 0 → (s.ftable f).kind = .FD_NONE
  inode : ∀ e, (s.icache e).ref = (Finset.univ.filter fun f => (s.ftable f).kind = .FD_INODE e).card +
    (Finset.univ.filter fun p => (s.procs p).cwd = some e).card
  readopen : ∀ id, id < s.npipes → ((s.pipes id).readopen = true ↔ ∃ f, 0 < (s.ftable f).ref ∧ (s.ftable f).kind = .FD_PIPE id false)
  writeopen : ∀ id, id < s.npipes → ((s.pipes id).writeopen = true ↔ ∃ f, 0 < (s.ftable f).ref ∧ (s.ftable f).kind = .FD_PIPE id true)
  freed : ∀ id, id < s.npipes → (s.pipes id).frees = if (s.pipes id).readopen = false ∧ (s.pipes id).writeopen = false then 1 else 0

theorem Refs.side_iff (refs : Refs (fun _ => none) s) (id : Nat) (w : Bool) :
    (s.pipes id).side w = true ↔ ∃ f, 0 < (s.ftable f).ref ∧ (s.ftable f).kind = .FD_PIPE id w := by
  have counted := refs.pipes.side id w
  rw [total_nothing s Hold.ends fun _ => rfl,total_kinds_eq,Nat.add_zero] at counted
  constructor
  · intro isOpen
    rw [isOpen,Bool.toNat_true] at counted
    obtain ⟨f,here⟩ := card_pos.mp (by rw [← counted]; exact Nat.one_pos)
    have kind := (mem_filter.mp here).2
    refine ⟨f,?_,kind⟩
    have total := refs.files.ref f
    by_contra none
    rw [refs.files.unused f (by omega)] at kind
    cases kind
  · rintro ⟨f,-,kind⟩
    by_contra closed
    rw [Bool.not_eq_true] at closed
    rw [closed,Bool.toNat_false] at counted
    have empty := card_eq_zero.mp counted.symm
    exact notMem_empty f (empty ▸ mem_filter.mpr ⟨mem_univ f,kind⟩)

theorem Refs.counted (refs : Refs (fun _ => none) s) : Counted s where
  file f := by rw [refs.files.ref f,total_files_eq]
  typeless := refs.files.unused
  inode e := by
    have counted := refs.inodes e
    rwa [total_kinds_eq,total_inodes_eq] at counted
  readopen id _ := refs.side_iff id false
  writeopen id _ := refs.side_iff id true
  freed id inside := by
    have counted := refs.pipes.page id
    rw [total_nothing s Hold.pages fun _ => rfl] at counted
    simpa [Pipe.side,inside] using counted

theorem boot_procs (inodes : Nat → Inode) (p : Proc) : ((State.boot inodes).procs p).ofile = (fun _ => none) ∧
    (((State.boot inodes).procs p).state ≠ .RUNNABLE → ((State.boot inodes).procs p).cwd = none) ∧
    (((State.boot inodes).procs p).state = .RUNNABLE → ((State.boot inodes).procs p).cwd ≠ none) := by
  simp only [State.boot]
  split <;> simp

theorem boot_cwd (inodes : Nat → Inode) (p : Proc) (e : Entry) :
    ((State.boot inodes).procs p).cwd = some e ↔ p = initproc ∧ e.val = 0 := by
  simp only [State.boot]
  split <;> simp_all [Fin.ext_iff,eq_comm]

theorem Refs.boot (inodes : Nat → Inode) : Refs (fun _ => none) (State.boot inodes) where
  files := by
    refine ⟨fun f => ?_,fun f _ => rfl,by simp [State.held,State.atRest],by simp [State.held,State.atRest],by simp [State.held,State.atRest]⟩
    rw [total_nothing _ Hold.files fun p => by simp only [State.atRest,(boot_procs inodes p).1,slots_none]]
    rfl
  inodes e := by
    rw [total_kinds_eq,total_inodes_eq]
    simp only [boot_cwd]
    by_cases first : e.val = 0
    · simp [State.boot,first,filter_eq']
    · simp [State.boot,first]
  pipes := by
    refine ⟨fun id w => ?_,fun id => ?_,fun _ _ => rfl⟩
    · rw [total_nothing _ Hold.ends fun _ => rfl,total_kinds_eq]
      simp [State.boot,Pipe.side]
    · rw [total_nothing _ Hold.pages fun _ => rfl]
      simp [State.boot]
  procs := by
    refine ⟨by simp,by simp,by simp,fun p _ => (boot_procs inodes p).2.2,fun p unused => ⟨(boot_procs inodes p).1,(boot_procs inodes p).2.1 ?_⟩⟩
    rcases unused with unused | unused <;> rw [unused] <;> simp

/-- Between the calls, `ref` of a file is the number of descriptors that hold it, `ref` of an inode
    the number of files and current directories, an end of a pipe is open exactly if a file
    stands for it, and the page of a pipe is freed once, when both ends are closed. No call
    panics because a count is too low. -/
theorem reference_counts (inodes : Nat → Inode) (w : World) (reachable : Reachable inodes w) :
    ((∀ p, w.threads p = none) → Counted w.shared) ∧
      ¬ w.Stops (rules handle) (.panic "filedup") ∧ ¬ w.Stops (rules handle) (.panic "fileclose") := by
  have good := Sessions.good_reachable refs_kept (fun _ => rfl) (Refs.boot inodes) reachable
  refine ⟨fun quiet => ?_,fun stops => ?_,fun stops => ?_⟩
  · exact Refs.counted (Sessions.good_quiet good quiet)
  · exact Sessions.good_stops refs_kept good stops (.inl rfl)
  · exact Sessions.good_stops refs_kept good stops (.inr rfl)

def root : Nat → Inode := fun i =>
  if i = ROOTINO then ⟨T_DIR,0,0,1,[⟨ROOTINO,Fs.strncpy dot⟩,⟨ROOTINO,Fs.strncpy dotdot⟩]⟩ else ⟨0,0,0,0,[]⟩

def sharing : List (Proc × Call) :=
  [(initproc,.open (some ([47],0))),(initproc,.dup (some 0)),(initproc,.pipe (some ())),(initproc,.fork)]

theorem reference_counts_shared : ∃ w, Reachable root w ∧ Counted w.shared ∧ (w.shared.ftable ⟨0,by decide⟩).ref = 4 ∧
    (w.shared.ftable ⟨0,by decide⟩).kind = .FD_INODE ⟨0,by decide⟩ ∧ (w.shared.icache ⟨0,by decide⟩).ref = 3 ∧
    (w.shared.pipes 0).readopen = true := by
  have facts : ((State.boot root).run sharing).any (fun s => decide ((s.ftable ⟨0,by decide⟩).ref = 4) &&
      decide ((s.ftable ⟨0,by decide⟩).kind = .FD_INODE ⟨0,by decide⟩) && decide ((s.icache ⟨0,by decide⟩).ref = 3) &&
      (s.pipes 0).readopen) = true := by decide +kernel
  obtain ⟨s,ran,holds⟩ := (Option.any_eq_true _ _).mp facts
  simp only [Bool.and_eq_true,decide_eq_true_eq] at holds
  obtain ⟨⟨⟨ref,kind⟩,cached⟩,isOpen⟩ := holds
  have reachable := reachable_run ran
  exact ⟨_,reachable,(reference_counts root _ reachable).1 fun _ => rfl,ref,kind,cached,isOpen⟩

end

end Osce.Sys
