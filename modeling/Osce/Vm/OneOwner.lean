import Osce.Vm.Boot
import Osce.Vm.ExecSafe

/-!
No page has two owners in any state that a run of the machine reaches from its start, whatever calls of `kalloc` return 0.
`exec` has to be kept from writing through the null pointer, which is an address of the process that calls it: `copyout` follows
it when the arguments reach down into a part of the address space that has no page table.
-/
namespace Osce.Vm
open Osce.Lib Prog Multiset

variable {env : Env} {E : Stop → Prop} {All R X : Multiset Nat} {s s' : Machine} {m m' : Mem} {i d sz : Nat} {refuse : Nat → Bool}

theorem UserWrites.stored (writes : UserWrites m m' d) : Stored m m' d :=
  ⟨writes.1,fun y notFrame => writes.2.2 y fun v user present _ isY => notFrame (mem_frames.mpr ⟨v,user,present,isY⟩)⟩

theorem Good.userWrites (reg : Region All) (good : Good All X s) (inside : i < NPROC) (running : (s.proc i).state = .RUNNABLE)
    (writes : UserWrites s.mem m' (s.proc i).pgdir) : Good All X { s with mem := m' } := by
  have live := live_running running
  have owned := good.owned inside live
  have stored := writes.stored
  have owned' : Owned All m' (s.proc i).pgdir (0 + (s.proc i).kstack ::ₘ (s.others i + X)) := by
    rw [zero_add]
    exact stored.owned owned reg
  have kept : Kept (s.others i) s.mem m' := (stored.keeps owned reg).mono fun x inOthers =>
    mem_cons_of_mem (mem_add.mpr (.inl inOthers))
  have good' := good.of_owned inside live (good.low i inside live) owned' kept
  rwa [Function.update_eq_self,zero_add] at good'

/-- The segments of a file that is executed are page-aligned and do not wrap around. -/
def Call.WellFormed : Call → Prop
  | .exec file _ => ∀ ph ∈ programs file, Loads ph → ph.vaddr % PGSIZE = 0 ∧ ph.vaddr + ph.memsz < 2 ^ 32
  | _ => True

/-- Each call of `kalloc` may return 0, but those of `walkpgdir` do not. -/
def tablesFound (refuse : Nat → Bool) : Env := ⟨refuse,fun table => !table⟩

/-- The argument strings of `exec` fit above `DEVSPACE`, and no call of `kalloc` in `walkpgdir` returns 0 while it runs. -/
def Call.Assured (refuse : Nat → Bool) (s : Machine) (i : Nat) : Call → Prop
  | .exec file uargv => ShortArgs s.mem (s.proc i) uargv ∧ ∃ r, Prog.exec (sysHandle (tablesFound refuse)) (sys_exec i file uargv) s = .ok r
  | _ => True

/-- A run in which `walkpgdir` finds its pages is one of the machine. -/
theorem exec_tablesFound {α : Type} {p : SysProg α} {a : α} (run : Prog.exec (sysHandle (tablesFound refuse)) p s = .ok (a,s')) :
    Prog.exec (sysHandle (failing refuse)) p s = .ok (a,s') := by
  have memory (op : VmOp) (m : Mem) (a : op.Ans) (m' : Mem) (answered : handle (tablesFound refuse) op m = .ok (a,m')) :
      handle (failing refuse) op m = .ok (a,m') := by
    cases op with
    | kalloc table =>
      cases list : (if refuse m.calls then [] else m.freelist) with
      | nil =>
        rw [handle,tablesFound,list] at answered
        rw [handle,failing,list]
        cases table with
        | false => exact answered
        | true => cases answered
      | cons r rest =>
        rw [handle,tablesFound,list] at answered
        rw [handle,failing,list]
        exact answered
    | _ => exact answered
  have operation (op : SysOp) (s : Machine) (a : op.Ans) (s' : Machine) (answered : sysHandle (tablesFound refuse) op s = .ok (a,s')) :
      sysHandle (failing refuse) op s = .ok (a,s') := by
    cases op with
    | vm op =>
      simp only [sysHandle] at answered ⊢
      cases found : handle (tablesFound refuse) op s.mem with
      | error e =>
        rw [found] at answered
        cases answered
      | ok r =>
        rw [memory op s.mem r.1 r.2 found]
        rw [found] at answered
        exact answered
    | _ => exact answered
  obtain ⟨t,answer,same⟩ := exec_sim (k := sysHandle (failing refuse)) Eq
    (fun op s t same a s' answered => ⟨s',same ▸ operation op s a s' answered,rfl⟩) p rfl run
  rw [same]
  exact answer

theorem Good.step (reg : Region All) (good : Good All X s) (settled : Settled s)
    (step : Step refuse (fun s i c => c.WellFormed ∧ c.Assured refuse s i) s s') : ∃ leak, Good All (leak + X) s' ∧ Settled s' := by
  have keeps {s' : Machine} (good' : Good All X s') (settled' : Settled s') : ∃ leak, Good All (leak + X) s' ∧ Settled s' :=
    ⟨0,by rwa [zero_add],settled'⟩
  have stops (e : Stop) : (fun _ => True : Stop → Prop) e := trivial
  cases step with
  | user inside running writes => exact keeps (good.userWrites reg inside running writes) settled
  | @call _ i c inside running fine run =>
    cases c with
    | fork =>
      refine wp_ok (E := fun _ => True) (Q := fun _ s' => ∃ leak, Good All (leak + X) s' ∧ Settled s') ?_ run
      rw [Call.run,wp_bind]
      exact wp_fork reg good settled inside running stops fun r s' left => left.imp fun leak parts => ⟨parts.1,parts.2.2⟩
    | sbrk n =>
      refine wp_ok (E := fun _ => True) (Q := fun _ s' => ∃ leak, Good All (leak + X) s' ∧ Settled s') ?_ run
      rw [Call.run,wp_bind]
      exact wp_sbrk reg good settled inside running stops fun r s' left => left.imp fun leak parts => ⟨parts.1,parts.2.2⟩
    | exec file uargv =>
      obtain ⟨formed,short,⟨r,s''⟩,found⟩ := fine
      have final : Good All X s'' ∧ Settled s'' := by
        refine wp_ok (E := fun _ => True) (Q := fun _ s' => Good All X s' ∧ Settled s') ?_ found
        exact wp_sys_exec reg good settled inside running rfl (fun ph member loads => (formed ph member loads).2) short stops
          fun r s' good' settled' => ⟨good',settled'⟩
      have same : s'' = s' := by
        rw [Call.run,exec_bind,exec_tablesFound found] at run
        cases run
        rfl
      rw [← same]
      exact keeps final.1 final.2
    | exit =>
      refine wp_ok (E := fun _ => True) (Q := fun _ s' => ∃ leak, Good All (leak + X) s' ∧ Settled s') ?_ run
      exact wp_exit reg good settled inside running stops fun s' good' settled' => keeps good' settled'
    | wait =>
      refine wp_ok (E := fun _ => True) (Q := fun _ s' => ∃ leak, Good All (leak + X) s' ∧ Settled s') ?_ run
      rw [Call.run,wp_bind,wait]
      exact wp_wait_from _ (fun j member => List.mem_range.mp member) reg good settled stops fun r s' good' settled' => keeps good' settled'
    | pipe =>
      refine wp_ok (E := fun _ => True) (Q := fun _ s' => ∃ leak, Good All (leak + X) s' ∧ Settled s') ?_ run
      rw [Call.run,wp_bind]
      exact wp_sys_pipe reg good stops fun r s' good' same => keeps good' (same.settled settled)
    | close fd =>
      refine wp_ok (E := fun _ => True) (Q := fun _ s' => ∃ leak, Good All (leak + X) s' ∧ Settled s') ?_ run
      rw [Call.run,wp_bind]
      exact wp_sys_close reg good stops fun r s' good' same => keeps good' (same.settled settled)

def given : Nat → Bool := fun _ => false

end Osce.Vm
