import Osce.Vm.Machine
import Osce.Vm.Exec

/-!
Who has which page in the whole machine. `Machine.held` collects the pages of all owners but the free list: the kernel's own
directory, the kernel stack and the directory of each process, and the pipes that are open. Each operation that takes or
gives back pages is a step of `Divided`, in which the pages of the other owners are named as a whole and keep their contents.
-/
namespace Osce.Vm
open Osce.Lib Prog Function Multiset

variable {ok : Nat → Nat → Nat → Mem → Prop} {env : Env} {E : Stop → Prop} {All R X : Multiset Nat} {m m' : Mem} {d x : Nat}

theorem wp_kfree_loose {Q : Unit → Mem → Prop} (reg : Region All) (divided : Divided All m (x ::ₘ R))
    (done : ∀ m', Divided All m' R → Kept R m m' → m'.freelist = x :: m.freelist → Q () m') :
    Wp (checked ok env) E (perform (.kfree x)) Q m := by
  obtain ⟨low,high⟩ := reg.range x (by
    rw [← (divided : _ = All)]
    exact mem_add.mpr (.inr (mem_cons_self ..)))
  have once := reg.once
  rw [← (divided : _ = All)] at once
  have notRest := (nodup_cons.mp (nodup_add.mp once).2.1).1
  rw [wp_kfree low high]
  refine done _ ?_ (fun y inRest => setPage_other _ _ fun isX => notRest (isX ▸ inRest)) rfl
  rw [Divided] at *
  rw [← divided,← cons_coe,cons_add,add_cons]

theorem wp_kalloc_loose {Q : Option Nat → Mem → Prop} {table : Bool} (divided : Divided All m R)
    (found : ∀ m' r, Divided All m' (r ::ₘ R) → m'.page = m.page → Q (some r) m')
    (none : ∀ m', Divided All m' R → m'.page = m.page → Fails env m → Q none m')
    (sleep : Fails env m → env.may table = false → E .sleep) : Wp (checked ok env) E (perform (.kalloc table)) Q m := by
  refine wp_kalloc (fun r rest list => found _ r ?_ rfl) (fun fails _ => none _ divided rfl fails) sleep
  rw [Divided] at *
  rw [← divided,list,← cons_coe,cons_add,add_cons]

theorem wp_growproc_owned {Q : Int × Nat → Mem → Prop} {sz : Nat} {n : Int} (reg : Region All) (owned : Owned All m d R) (low : sz < KERNBASE)
    (done : ∀ r m' leak, Owned All m' d (leak + R) → Kept R m m' → r.2 < KERNBASE → (env.may true = false → leak = 0) → Q r m')
    (stops : ∀ e, E e) : Wp (checked ok env) E (growproc d sz n) Q m := by
  have same (r : Int × Nat) (size : r.2 < KERNBASE) : Q r m := done r m 0 (by rwa [zero_add]) (fun _ _ => rfl) size fun _ => rfl
  rw [growproc]
  by_cases grow : n > 0
  · rw [if_pos grow,wp_bind]
    refine wp_allocuvm reg owned (fun _ => ?_) (fun _ => ?_) (fun m' leak _ high owned' extends' lossless _ => ?_)
      (fun m' leak owned' kept lossless _ _ => ?_) (fun _ _ _ _ _ => stops _) fun _ _ _ => stops _
    · rw [if_pos rfl]
      exact same _ low
    · split
      · exact same _ low
      · rw [wp_growproc_commit reg owned]
        exact same _ low
    · have kept : Kept R m m' := fun x inRest => extends'.grows.rest owned reg inRest
      split
      · exact done _ m' leak owned' kept low fun assured => (lossless (not_lossy assured)).1
      · rw [wp_growproc_commit reg owned']
        exact done _ m' leak owned' kept high fun assured => (lossless (not_lossy assured)).1
    · rw [if_pos rfl]
      exact done _ m' leak owned' kept low fun assured => lossless (not_lossy assured)
  rw [if_neg grow]
  by_cases shrink : n < 0
  · rw [if_pos shrink,wp_bind]
    refine wp_deallocuvm reg low.le owned (fun _ => ?_) fun m' smaller owned' shrinks _ _ => ?_
    · split
      · exact same _ low
      · rw [wp_growproc_commit reg owned]
        exact same _ low
    · have kept : Kept R m m' := fun x inRest => shrinks.rest owned reg inRest
      have owned'' : Owned All m' d (0 + R) := by rwa [zero_add]
      split
      · exact done _ m' 0 owned'' kept low fun _ => rfl
      · rw [wp_growproc_commit reg owned']
        exact done _ m' 0 owned'' kept (smaller.trans low) fun _ => rfl
  · rw [if_neg shrink,wp_growproc_commit reg owned]
    exact same _ low

theorem wp_sys_sbrk_owned {Q : Int × Nat → Mem → Prop} {sz : Nat} {n : Int} (reg : Region All) (owned : Owned All m d R) (low : sz < KERNBASE)
    (done : ∀ r m' leak, Owned All m' d (leak + R) → Kept R m m' → r.2 < KERNBASE → (env.may true = false → leak = 0) → Q r m')
    (stops : ∀ e, E e) : Wp (checked ok env) E (sys_sbrk d sz n) Q m := by
  rw [sys_sbrk,wp_bind]
  refine wp_growproc_owned reg owned low (fun r m' leak owned' kept low' lossless => ?_) stops
  show Wp _ _ (if r.1 < 0 then _ else _) _ _
  split
  · exact done _ m' leak owned' kept low' lossless
  · exact done _ m' leak owned' kept low' lossless

theorem tree_kept (kept : Kept (m.tree d) m m') : m'.tree d = m.tree d :=
  tree_congr (kept d (mem_cons_self ..)) fun x isTable => kept x (mem_cons_of_mem (mem_add.mpr (.inl isTable)))

/-- The pages of a process: its kernel stack and its directory. -/
def Proc.pages (m : Mem) (p : Proc) : Multiset Nat :=
  if p.state = .UNUSED ∨ p.state = .EMBRYO then 0 else p.kstack ::ₘ m.tree p.pgdir

@[irreducible] def procPages (m : Mem) (proc : Nat → Proc) (among : Finset Nat) : Multiset Nat := ∑ i ∈ among, (proc i).pages m

@[irreducible] def pipePages (pipe : Nat → Pipe) : Multiset Nat := taken lastPage fun x => if (pipe x).isOpen then some x else none

def Machine.held (s : Machine) : Multiset Nat :=
  s.mem.tree s.kpgdir + procPages s.mem s.proc (Finset.range NPROC) + pipePages s.pipe

def Machine.others (s : Machine) (i : Nat) : Multiset Nat :=
  s.mem.tree s.kpgdir + procPages s.mem s.proc ((Finset.range NPROC).erase i) + pipePages s.pipe

section
variable {proc proc' : Nat → Proc} {among : Finset Nat} {i : Nat} {s : Machine}

theorem Proc.pages_kept {p : Proc} (kept : Kept (p.pages m) m m') : p.pages m' = p.pages m := by
  rw [Proc.pages] at kept ⊢
  rw [Proc.pages]
  split
  · rfl
  · rename_i live
    rw [if_neg live] at kept
    rw [tree_kept fun x inTree => kept x (mem_cons_of_mem inTree)]

theorem mem_procPages : x ∈ procPages m proc among ↔ ∃ i ∈ among, x ∈ (proc i).pages m := by
  rw [procPages,mem_sum]

theorem procPages_kept (kept : Kept (procPages m proc among) m m') : procPages m' proc among = procPages m proc among := by
  rw [procPages,procPages]
  exact Finset.sum_congr rfl fun i member => Proc.pages_kept fun x inPages => kept x (mem_procPages.mpr ⟨i,member,inPages⟩)

theorem procPages_congr (same : ∀ i ∈ among, (proc' i).pages m = (proc i).pages m) :
    procPages m proc' among = procPages m proc among := by
  rw [procPages,procPages]
  exact Finset.sum_congr rfl same

theorem procPages_split (inside : i < NPROC) :
    procPages m proc (Finset.range NPROC) = (proc i).pages m + procPages m proc ((Finset.range NPROC).erase i) := by
  rw [procPages,procPages]
  exact (Finset.add_sum_erase _ _ (Finset.mem_range.mpr inside)).symm

theorem Machine.held_split (inside : i < NPROC) : s.held = (s.proc i).pages s.mem + s.others i := by
  rw [Machine.held,Machine.others,procPages_split inside]
  simp only [add_assoc,add_left_comm]

theorem Kept.mono {R' : Multiset Nat} (kept : Kept R m m') (sub : ∀ x ∈ R', x ∈ R) : Kept R' m m' := fun x member => kept x (sub x member)

theorem Machine.others_kept (kept : Kept (s.others i) s.mem m') : Machine.others { s with mem := m' } i = s.others i := by
  rw [Machine.others] at kept ⊢
  rw [Machine.others]
  dsimp only
  rw [tree_kept (kept.mono fun x inTree => mem_add.mpr (.inl (mem_add.mpr (.inl inTree)))),
    procPages_kept (kept.mono fun x inPages => mem_add.mpr (.inl (mem_add.mpr (.inr inPages))))]

theorem Machine.held_kept (kept : Kept s.held s.mem m') : Machine.held { s with mem := m' } = s.held := by
  rw [Machine.held] at kept ⊢
  rw [Machine.held]
  dsimp only
  rw [tree_kept (kept.mono fun x inTree => mem_add.mpr (.inl (mem_add.mpr (.inl inTree)))),
    procPages_kept (kept.mono fun x inPages => mem_add.mpr (.inl (mem_add.mpr (.inr inPages))))]

theorem Machine.others_setProc (p : Proc) : Machine.others { s with proc := update s.proc i p } i = s.others i := by
  rw [Machine.others,Machine.others]
  dsimp only
  rw [procPages_congr fun j member => ?_]
  rw [update_of_ne (Finset.ne_of_mem_erase member)]

theorem Machine.held_setProc (inside : i < NPROC) (p : Proc) :
    Machine.held { s with proc := update s.proc i p } = p.pages s.mem + s.others i := by
  rw [Machine.held_split inside,Machine.others_setProc]
  dsimp only
  rw [update_self]

theorem Machine.held_sameProc {p : Proc} (same : p.pages s.mem = (s.proc i).pages s.mem) :
    Machine.held { s with proc := update s.proc i p } = s.held := by
  rw [Machine.held,Machine.held]
  dsimp only
  rw [procPages_congr fun j _ => ?_]
  by_cases isI : j = i
  · rw [isI,update_self,same]
  · rw [update_of_ne isI]

theorem Proc.pages_live {p : Proc} (used : p.state ≠ .UNUSED) (made : p.state ≠ .EMBRYO) : p.pages m = p.kstack ::ₘ m.tree p.pgdir :=
  if_neg (by simp [used,made])

end

end Osce.Vm
