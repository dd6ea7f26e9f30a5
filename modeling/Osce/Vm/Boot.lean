import Osce.Vm.Procs

/-!
The start of the machine. `main` gives the pages below 4 MB to the allocator, makes the kernel's directory out of them, gives
it the other pages and makes the first process.
-/
namespace Osce.Vm
open Osce.Lib Prog Function Multiset

variable {ok : Nat → Nat → Nat → Mem → Prop} {env : Env} {E : Stop → Prop} {All R X : Multiset Nat} {s : Machine} {m m' : Mem} {d x : Nat}

def UserPage (m : Mem) (d u : Nat) : Prop := ∃ x, m.pte d u = mkPte x (PTE_W + PTE_U)

/-- The first process with its address space of one page, and what there was before. -/
structure First (All : Multiset Nat) (s s' : Machine) : Prop where
  running : (s'.proc initproc).state = .RUNNABLE
  size : (s'.proc initproc).sz = PGSIZE
  space : Space All ((s'.proc initproc).kstack ::ₘ s'.others initproc) s'.mem (s'.proc initproc).pgdir PGSIZE
  user : UserPage s'.mem (s'.proc initproc).pgdir 0
  kernel : s'.kpgdir = s.kpgdir
  others : s'.others initproc = s.held

end Osce.Vm
