import Osce.Sys.Contract

/-!
The counters of the kernel and what they count. A file counts the descriptors and the
calls that hold it, an inode the files and the processes that do, and each end of a pipe
is open as long as a file stands for it.
-/
namespace Osce.Sys
open Osce.Lib Function

section
variable {ftable : File → OpenFile} {files : Proc → Multiset File} {fresh : Proc → Finset File} {p q : Proc} {f : File}

structure FileRefs (ftable : File → OpenFile) (files : Proc → Multiset File) (fresh : Proc → Finset File) : Prop where
  ref : ∀ f, (ftable f).ref = total files f
  unused : ∀ f, (ftable f).ref = 0 → (ftable f).kind = .FD_NONE
  held : ∀ p, ∀ f ∈ fresh p, f ∈ files p
  typeless : ∀ p, ∀ f ∈ fresh p, (ftable f).kind = .FD_NONE
  apart : ∀ p q f, f ∈ fresh p → f ∈ fresh q → p = q

theorem FileRefs.ref_pos (refs : FileRefs ftable files fresh) (held : f ∈ files p) : 1 ≤ (ftable f).ref := by
  have counted := refs.ref f
  have positive := total_pos held
  omega

theorem FileRefs.notMem (refs : FileRefs ftable files fresh) (free : (ftable f).ref = 0) : f ∉ files p := by
  intro held
  have positive := refs.ref_pos held
  omega

theorem FileRefs.alloc (refs : FileRefs ftable files fresh) (free : (ftable f).ref = 0) :
    FileRefs (update ftable f { ftable f with ref := 1 }) (update files p (f ::ₘ files p))
      (update fresh p (insert f (fresh p))) := by
  have none := refs.unused f free
  have notFresh (q : Proc) : f ∉ fresh q := fun here => refs.notMem free (refs.held q f here)
  have new : ∀ q, ∀ g ∈ update fresh p (insert f (fresh p)) q, g ∈ fresh q ∨ q = p ∧ g = f := by
    refine (forall_update_iff fresh fun q here => ∀ g ∈ here, g ∈ fresh q ∨ q = p ∧ g = f).mpr ⟨fun g here => ?_,?_⟩
    · rcases Finset.mem_insert.mp here with isF | old
      · exact .inr ⟨rfl,isF⟩
      · exact .inl old
    · exact fun q _ g old => .inl old
  refine ⟨?_,?_,fun q g here => ?_,fun q g here => ?_,fun q r g here there => ?_⟩
  · simp only [total_cons]
    refine (forall_update_iff ftable fun g file => file.ref = _).mpr ⟨?_,fun g other => ?_⟩
    · have counted := refs.ref f
      rw [if_pos rfl]
      dsimp only
      omega
    · rw [if_neg other,Nat.add_zero,refs.ref g]
  · exact (forall_update_iff ftable fun _ file => file.ref = 0 → file.kind = .FD_NONE).mpr
      ⟨fun _ => none,fun g _ => refs.unused g⟩
  · rcases new q g here with old | ⟨rfl,rfl⟩
    · by_cases same : q = p
      · subst same
        rw [update_self]
        exact Multiset.mem_cons_of_mem (refs.held q g old)
      · rw [update_of_ne same]
        exact refs.held q g old
    · rw [update_self]
      exact Multiset.mem_cons_self ..
  · by_cases same : g = f
    · rw [same,update_self]
      exact none
    · rw [update_of_ne same]
      exact refs.typeless q g ((new q g here).resolve_right fun both => same both.2)
  · rcases new q g here with old | ⟨rfl,rfl⟩ <;> rcases new r g there with old' | ⟨rfl,isF⟩
    · exact refs.apart q r g old old'
    · exact absurd (isF ▸ old) (notFresh q)
    · exact absurd old' (notFresh r)
    · rfl

theorem FileRefs.change (refs : FileRefs ftable files fresh) {file : OpenFile} {files' : Proc → Multiset File}
    {fresh' : Proc → Finset File} (ref : file.ref = total files' f) (others : ∀ g, g ≠ f → total files' g = total files g)
    (unused : file.ref = 0 → file.kind = .FD_NONE) (less : ∀ q, ∀ g ∈ fresh' q, g ∈ fresh q ∧ g ∈ files' q)
    (typeless : ∀ q, f ∈ fresh' q → file.kind = .FD_NONE) : FileRefs (update ftable f file) files' fresh' := by
  refine ⟨?_,?_,fun q g here => (less q g here).2,fun q g here => ?_,fun q r g here there => ?_⟩
  · exact (forall_update_iff ftable fun g file => file.ref = total files' g).mpr
      ⟨ref,fun g other => by rw [refs.ref g,others g other]⟩
  · exact (forall_update_iff ftable fun _ file => file.ref = 0 → file.kind = .FD_NONE).mpr
      ⟨unused,fun g _ => refs.unused g⟩
  · by_cases same : g = f
    · subst same
      rw [update_self]
      exact typeless q here
    · rw [update_of_ne same]
      exact refs.typeless q g (less q g here).1
  · exact refs.apart q r g (less q g here).1 (less r g there).1

theorem FileRefs.dup (refs : FileRefs ftable files fresh) (held : f ∈ files p) :
    FileRefs (update ftable f { ftable f with ref := (ftable f).ref + 1 }) (update files p (f ::ₘ files p)) fresh := by
  refine refs.change ?_ (fun g other => by rw [total_cons,if_neg other,Nat.add_zero]) ?_ ?_ (fun q => refs.typeless q f)
  · rw [total_cons,if_pos rfl,refs.ref f]
    rfl
  · have positive := refs.ref_pos held
    intro zero
    simp only at zero
    omega
  · intro q g here
    refine ⟨here,?_⟩
    have old := refs.held q g here
    by_cases same : q = p
    · subst same
      rw [update_self]
      exact Multiset.mem_cons_of_mem old
    · rwa [update_of_ne same]

theorem FileRefs.held_erase (refs : FileRefs ftable files fresh) {g : File}
    (here : g ∈ update fresh p ((fresh p).erase f) q) :
    g ∈ fresh q ∧ g ∈ update files p ((files p).erase f) q := by
  by_cases same : q = p
  · subst same
    rw [update_self] at here ⊢
    have old := Finset.mem_of_mem_erase here
    exact ⟨old,(Multiset.mem_erase_of_ne (Finset.ne_of_mem_erase here)).mpr (refs.held q g old)⟩
  · rw [update_of_ne same] at here ⊢
    exact ⟨here,refs.held q g here⟩

theorem FileRefs.close (refs : FileRefs ftable files fresh) (held : f ∈ files p) (kind : FileKind)
    (isKind : (ftable f).ref = 1 ∧ kind = .FD_NONE ∨ (ftable f).ref ≠ 1 ∧ kind = (ftable f).kind) :
    FileRefs (update ftable f ⟨(ftable f).ref - 1,kind⟩) (update files p ((files p).erase f))
      (update fresh p ((fresh p).erase f)) := by
  refine refs.change ?_ (fun g other => ?_) (fun zero => ?_) (fun q g => refs.held_erase) (fun q here => ?_)
  · have counted := total_erase held f
    have before := refs.ref f
    rw [if_pos rfl] at counted
    simp only
    omega
  · have counted := total_erase held g
    rw [if_neg other] at counted
    omega
  · rcases isKind with last | more
    · exact last.2
    · simp only at zero
      omega
  · rcases isKind with last | more
    · exact last.2
    · exact more.2.trans (refs.typeless q f (refs.held_erase here).1)

theorem FileRefs.set (refs : FileRefs ftable files fresh) (here : f ∈ fresh p) (kind : FileKind) :
    FileRefs (update ftable f { ftable f with kind := kind }) files (update fresh p ((fresh p).erase f)) := by
  have held := refs.held p f here
  have less : ∀ q, ∀ g ∈ update fresh p ((fresh p).erase f) q, g ∈ fresh q ∧ (q = p → g ≠ f) := by
    refine (forall_update_iff fresh fun q fresh' => ∀ g ∈ fresh', g ∈ fresh q ∧ (q = p → g ≠ f)).mpr ⟨?_,?_⟩
    · exact fun g here => ⟨Finset.mem_of_mem_erase here,fun _ => Finset.ne_of_mem_erase here⟩
    · exact fun q other g here => ⟨here,fun same => absurd same other⟩
  refine refs.change (refs.ref f) (fun _ _ => rfl) (fun zero => ?_) (fun q g here => ?_) (fun q there => ?_)
  · have positive := refs.ref_pos held
    simp only at zero
    omega
  · exact ⟨(less q g here).1,refs.held q g (less q g here).1⟩
  · have isP := refs.apart q p f (less q f there).1 here
    exact absurd rfl ((less q f there).2 isP)

theorem FileRefs.give (refs : FileRefs ftable files fresh) (held : f ∈ files p) (apart : q ≠ p) (none : fresh q = ∅) :
    FileRefs ftable (update (update files p ((files p).erase f)) q (f ::ₘ files q))
      (update fresh p ((fresh p).erase f)) := by
  have pass := total_pass apart held
  have changed : FileRefs (update ftable f (ftable f)) (update (update files p ((files p).erase f)) q (f ::ₘ files q))
      (update fresh p ((fresh p).erase f)) := by
    refine refs.change ?_ (fun g _ => pass g) (refs.unused f) (fun r g here => ?_) fun r here => ?_
    · rw [pass]
      exact refs.ref f
    · obtain ⟨old,still⟩ := refs.held_erase here
      refine ⟨old,?_⟩
      rwa [update_of_ne]
      rintro rfl
      rw [none] at old
      exact Finset.notMem_empty g old
    · exact refs.typeless r f (refs.held_erase here).1
  rwa [update_eq_self] at changed

end

def kinds (ftable : File → OpenFile) : File → Multiset FileKind := (fun file => {file.kind}) ∘ ftable

section
variable {ref : Entry → Int} {ftable : File → OpenFile} {inodes : Proc → Multiset Entry} {p q : Proc} {e : Entry} {f : File}
  {file : OpenFile}

theorem total_kinds (ftable : File → OpenFile) (f : File) (file : OpenFile) (kind : FileKind) :
    total (kinds (update ftable f file)) kind + (if (ftable f).kind = kind then 1 else 0) =
      total (kinds ftable) kind + if file.kind = kind then 1 else 0 := by
  have change := total_update (kinds ftable) f {file.kind} kind
  simpa only [kinds,comp_update,comp_apply,Multiset.count_singleton,eq_comm] using change

def InodeRefs (ref : Entry → Int) (ftable : File → OpenFile) (inodes : Proc → Multiset Entry) : Prop :=
  ∀ e, ref e = total (kinds ftable) (.FD_INODE e) + total inodes e

theorem InodeRefs.get (refs : InodeRefs ref ftable inodes) :
    InodeRefs (update ref e (ref e + 1)) ftable (update inodes p (e ::ₘ inodes p)) := by
  refine (forall_update_iff ref fun e count => count = _).mpr ⟨?_,fun e' other => ?_⟩
  · rw [total_cons,if_pos rfl,refs e]
    push_cast
    omega
  · rw [total_cons,if_neg other,refs e',Nat.add_zero]

theorem InodeRefs.put (refs : InodeRefs ref ftable inodes) (held : e ∈ inodes p) :
    InodeRefs (update ref e (ref e - 1)) ftable (update inodes p ((inodes p).erase e)) := by
  refine (forall_update_iff ref fun e count => count = _).mpr ⟨?_,fun e' other => ?_⟩
  · have counted := total_erase held e
    rw [if_pos rfl] at counted
    rw [refs e]
    omega
  · have counted := total_erase held e'
    rw [if_neg other] at counted
    rw [refs e',← counted,Nat.add_zero]

theorem InodeRefs.move (refs : InodeRefs ref ftable inodes) {held : Multiset Entry}
    (same : ∀ e, (if file.kind = .FD_INODE e then 1 else 0) + held.count e =
      (if (ftable f).kind = .FD_INODE e then 1 else 0) + (inodes p).count e) :
    InodeRefs ref (update ftable f file) (update inodes p held) := by
  intro e
  have files := total_kinds ftable f file (.FD_INODE e)
  have procs := total_update inodes p held e
  have both := same e
  rw [refs e]
  omega

theorem InodeRefs.give (refs : InodeRefs ref ftable inodes) (held : e ∈ inodes p) (apart : q ≠ p) :
    InodeRefs ref ftable (update (update inodes p ((inodes p).erase e)) q (e ::ₘ inodes q)) := by
  intro e'
  rw [total_pass apart held,refs e']

end

def Pipe.side (pipe : Pipe) (writable : Bool) : Bool := if writable then pipe.writeopen else pipe.readopen

section
variable {pipes : Nat → Pipe} {npipes : Nat} {ftable : File → OpenFile} {ends : Proc → Multiset (Nat × Bool)}
  {pages : Proc → Multiset Nat} {p : Proc} {id : Nat} {f : File} {file : OpenFile}

structure PipeRefs (pipes : Nat → Pipe) (npipes : Nat) (ftable : File → OpenFile) (ends : Proc → Multiset (Nat × Bool))
    (pages : Proc → Multiset Nat) : Prop where
  side : ∀ id w, ((pipes id).side w).toNat = total (kinds ftable) (.FD_PIPE id w) + total ends (id,w)
  page : ∀ id, (pipes id).frees + total pages id =
    if id < npipes ∧ (pipes id).side false = false ∧ (pipes id).side true = false then 1 else 0
  unused : ∀ id, npipes ≤ id → pipes id = ⟨false,false,0⟩

theorem PipeRefs.page_of_mem (refs : PipeRefs pipes npipes ftable ends pages) (held : id ∈ pages p) :
    id < npipes ∧ (∀ w, (pipes id).side w = false) ∧ (pipes id).frees = 0 ∧ total pages id = 1 := by
  have counted := refs.page id
  have positive := total_pos held
  split at counted
  · rename_i closed
    refine ⟨closed.1,fun w => ?_,by omega,by omega⟩
    cases w with
    | false => exact closed.2.1
    | true => exact closed.2.2
  · omega

theorem PipeRefs.side_of_mem (refs : PipeRefs pipes npipes ftable ends pages) {w : Bool} (held : (id,w) ∈ ends p) :
    id < npipes ∧ (pipes id).side w = true ∧ total (kinds ftable) (.FD_PIPE id w) = 0 ∧ total ends (id,w) = 1 := by
  have counted := refs.side id w
  have positive := total_pos held
  have isOpen : (pipes id).side w = true := by
    cases closed : (pipes id).side w with
    | true => rfl
    | false =>
      rw [closed,Bool.toNat_false] at counted
      omega
  rw [isOpen,Bool.toNat_true] at counted
  refine ⟨?_,isOpen,by omega,by omega⟩
  by_contra outside
  rw [refs.unused id (by omega)] at isOpen
  cases w with
  | false => cases isOpen
  | true => cases isOpen

theorem PipeRefs.move (refs : PipeRefs pipes npipes ftable ends pages) {held : Multiset (Nat × Bool)}
    (same : ∀ id w, (if file.kind = .FD_PIPE id w then 1 else 0) + held.count (id,w) =
      (if (ftable f).kind = .FD_PIPE id w then 1 else 0) + (ends p).count (id,w)) :
    PipeRefs pipes npipes (update ftable f file) (update ends p held) pages := by
  refine ⟨fun id w => ?_,refs.page,refs.unused⟩
  have files := total_kinds ftable f file (.FD_PIPE id w)
  have procs := total_update ends p held (id,w)
  have both := same id w
  rw [refs.side id w]
  omega

theorem PipeRefs.alloc (refs : PipeRefs pipes npipes ftable ends pages) :
    PipeRefs (update pipes npipes ⟨false,false,0⟩) (npipes + 1) ftable ends
      (update pages p (npipes ::ₘ pages p)) := by
  have same : update pipes npipes ⟨false,false,0⟩ = pipes := by
    rw [← refs.unused npipes le_rfl,update_eq_self]
  rw [same]
  refine ⟨refs.side,fun id => ?_,fun id outside => refs.unused id (by omega)⟩
  have counted := refs.page id
  rw [total_cons]
  by_cases new : id = npipes
  · subst new
    rw [refs.unused id le_rfl] at counted ⊢
    rw [if_neg (by omega)] at counted
    rw [if_pos rfl,if_pos ⟨by omega,rfl,rfl⟩]
    omega
  · rw [if_neg new,Nat.add_zero,counted]
    congr 1
    rw [eq_iff_iff]
    constructor
    · exact fun ⟨inside,closed⟩ => ⟨by omega,closed⟩
    · exact fun ⟨inside,closed⟩ => ⟨by omega,closed⟩

theorem PipeRefs.change (refs : PipeRefs pipes npipes ftable ends pages) {pipe : Pipe} {ends' : Proc → Multiset (Nat × Bool)}
    {pages' : Proc → Multiset Nat} (inside : id < npipes)
    (side : ∀ w, (pipe.side w).toNat = total (kinds ftable) (.FD_PIPE id w) + total ends' (id,w))
    (page : pipe.frees + total pages' id = if pipe.side false = false ∧ pipe.side true = false then 1 else 0)
    (otherEnds : ∀ i w, i ≠ id → total ends' (i,w) = total ends (i,w)) (otherPages : ∀ i, i ≠ id → total pages' i = total pages i) :
    PipeRefs (update pipes id pipe) npipes ftable ends' pages' := by
  refine ⟨fun i w => ?_,fun i => ?_,fun i outside => ?_⟩
  · by_cases same : i = id
    · rw [same,update_self,side]
    · rw [update_of_ne same,refs.side,otherEnds i w same]
  · by_cases same : i = id
    · rw [same,update_self,page]
      simp [inside]
    · rw [update_of_ne same,otherPages i same,refs.page]
  · rw [update_of_ne (by omega)]
    exact refs.unused i outside

theorem PipeRefs.free (refs : PipeRefs pipes npipes ftable ends pages) (held : id ∈ pages p) :
    PipeRefs (update pipes id { pipes id with frees := (pipes id).frees + 1 }) npipes ftable ends
      (update pages p ((pages p).erase id)) := by
  obtain ⟨inside,closed,unfreed,once⟩ := refs.page_of_mem held
  refine refs.change inside (refs.side id) ?_ (fun _ _ _ => rfl) fun i other => ?_
  · have one := total_erase held id
    rw [if_pos rfl] at one
    rw [if_pos ⟨closed false,closed true⟩]
    dsimp only
    omega
  · have one := total_erase held i
    rw [if_neg other] at one
    omega

theorem PipeRefs.opened (refs : PipeRefs pipes npipes ftable ends pages) (held : id ∈ pages p) :
    PipeRefs (update pipes id { pipes id with readopen := true, writeopen := true }) npipes ftable
      (update ends p ((id,true) ::ₘ (id,false) ::ₘ ends p)) (update pages p ((pages p).erase id)) := by
  obtain ⟨inside,closed,unfreed,once⟩ := refs.page_of_mem held
  have more (i : Nat) (w : Bool) : total (update ends p ((id,true) ::ₘ (id,false) ::ₘ ends p)) (i,w) =
      total ends (i,w) + if i = id then 1 else 0 := by
    have change := total_update ends p ((id,true) ::ₘ (id,false) ::ₘ ends p) (i,w)
    rw [Multiset.count_cons,Multiset.count_cons] at change
    cases w <;> simp only [Prod.mk.injEq,and_true,reduceCtorEq,and_false,if_false,Nat.add_zero] at change <;> omega
  refine refs.change inside (fun w => ?_) ?_ (fun i w other => ?_) fun i other => ?_
  · have counted := refs.side id w
    rw [closed w,Bool.toNat_false] at counted
    rw [more,if_pos rfl]
    cases w <;> simp only [Pipe.side,Bool.toNat_true,if_true,Bool.false_eq_true,if_false] <;> omega
  · have one := total_erase held id
    rw [if_pos rfl] at one
    rw [if_neg (by simp [Pipe.side])]
    dsimp only
    omega
  · rw [more,if_neg other,Nat.add_zero]
  · have one := total_erase held i
    rw [if_neg other] at one
    omega

def Pipe.close (pipe : Pipe) (writable : Bool) : Pipe :=
  if writable then { pipe with writeopen := false } else { pipe with readopen := false }

theorem Pipe.side_close (pipe : Pipe) (w w' : Bool) : (pipe.close w).side w' = if w' = w then false else pipe.side w' := by
  cases w <;> cases w' <;> rfl

theorem PipeRefs.closed (refs : PipeRefs pipes npipes ftable ends pages) {w : Bool} (held : (id,w) ∈ ends p) :
    PipeRefs (update pipes id ((pipes id).close w)) npipes ftable (update ends p ((ends p).erase (id,w)))
      (update pages p (if !((pipes id).close w).readopen && !((pipes id).close w).writeopen then id ::ₘ pages p else pages p)) := by
  obtain ⟨inside,isOpen,-,-⟩ := refs.side_of_mem held
  have more (i : Nat) (both : Bool) : total (update pages p (if both then id ::ₘ pages p else pages p)) i =
      total pages i + if both = true ∧ i = id then 1 else 0 := by
    cases both with
    | false => simp
    | true => simp [total_cons]
  refine refs.change inside (fun w' => ?_) ?_ (fun i w' other => ?_) fun i other => ?_
  · have counted := refs.side id w'
    have one := total_erase held (id,w')
    rw [Pipe.side_close]
    by_cases same : w' = w
    · subst same
      rw [isOpen,Bool.toNat_true] at counted
      rw [if_pos rfl] at one ⊢
      rw [Bool.toNat_false]
      omega
    · rw [if_neg (by simpa using same)] at one
      rw [if_neg same]
      omega
  · have before := refs.page id
    have frees : ((pipes id).close w).frees = (pipes id).frees := by cases w <;> rfl
    rw [if_neg (fun both => by cases w <;> simp_all)] at before
    rw [more,frees]
    simp only [Pipe.side,Bool.and_eq_true,Bool.not_eq_true',and_true,if_true,Bool.false_eq_true,if_false]
    omega
  · have one := total_erase held (i,w')
    rw [if_neg (by simp [other])] at one
    omega
  · rw [more,if_neg (fun both => other both.2),Nat.add_zero]

end

end Osce.Sys
