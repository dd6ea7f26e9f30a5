import Mathlib

/-!
The allocator of user programs: `free`, `morecore` and `malloc` over a memory of headers. An address is a number of bytes, the header at an address takes
eight of them, and a block of so many units begins with its header. The loops go around a circular list, so they have a number of turns left.
-/
namespace Osce.Umalloc

/-- `union header` -/
structure Header where
  ptr : Nat
  size : Nat

/-- The memory of a process as `malloc` and `sbrk` know it. -/
structure Heap where
  mem : Nat → Header
  freep : Nat
  /-- The end of all memory that `sbrk` has given. -/
  top : Nat

/-- The loop of `free`: the node after which bp belongs. -/
def slot (mem : Nat → Header) (bp : Nat) : Nat → Nat → Option Nat
  | 0, _ => none
  | turns + 1, p =>
    if bp > p ∧ bp < (mem p).ptr then some p
    else if p ≥ (mem p).ptr ∧ (bp > p ∨ bp < (mem p).ptr) then some p
    else slot mem bp turns (mem p).ptr

/-- `bp` before the node after it, joined with it if they touch. -/
def joinNext (mem : Nat → Header) (bp next : Nat) : Nat → Header :=
  if bp + 8 * (mem bp).size = next then Function.update mem bp ⟨(mem next).ptr,(mem bp).size + (mem next).size⟩
  else Function.update mem bp { mem bp with ptr := next }

/-- `bp` after the node `p`, joined with it if they touch. -/
def joinPrev (mem : Nat → Header) (p bp : Nat) : Nat → Header :=
  if p + 8 * (mem p).size = bp then Function.update mem p ⟨(mem bp).ptr,(mem p).size + (mem bp).size⟩
  else Function.update mem p { mem p with ptr := bp }

def free (turns : Nat) (h : Heap) (ap : Nat) : Option Heap := do
  let bp := ap - 8
  let p ← slot h.mem bp turns h.freep
  pure { h with mem := joinPrev (joinNext h.mem bp (h.mem p).ptr) p bp, freep := p }

/-- What `sbrk` answers: the address of that many new bytes, depending on the end of the memory, or failure. -/
abbrev Sbrk : Type := Nat → Nat → Option Nat

/-- The heap after `morecore`, or null if `sbrk` fails. -/
def morecore (sbrk : Sbrk) (turns : Nat) (h : Heap) (nu : Nat) : Option (Option Heap) :=
  let nu := max nu 4096
  match sbrk h.top (nu * 8 % 2 ^ 32) with
  | none => some none
  | some hp => do
    let h ← free turns { h with mem := Function.update h.mem hp { h.mem hp with size := nu }, top := hp + nu * 8 % 2 ^ 32 } (hp + 8)
    pure (some h)

/-- A block of `nunits` from the node `p` that has as many: all of it, or its end. -/
def take (h : Heap) (nunits prevp p : Nat) : Heap × Nat :=
  if (h.mem p).size = nunits then
    ({ h with mem := Function.update h.mem prevp { h.mem prevp with ptr := (h.mem p).ptr }, freep := prevp },p + 8)
  else
    let size := (h.mem p).size - nunits
    let q := p + 8 * size
    let mem := Function.update h.mem p { h.mem p with size := size }
    ({ h with mem := Function.update mem q { mem q with size := nunits }, freep := prevp },q + 8)

def search (sbrk : Sbrk) (nunits : Nat) : Nat → Heap → Nat → Nat → Option (Heap × Nat)
  | 0, _, _, _ => none
  | turns + 1, h, prevp, p =>
    if (h.mem p).size ≥ nunits then some (take h nunits prevp p)
    else if p = h.freep then do
      match ← morecore sbrk turns h nunits with
      | none => pure (h,0)
      | some h => search sbrk nunits turns h h.freep (h.mem h.freep).ptr
    else search sbrk nunits turns h p (h.mem p).ptr

/-- The first call makes a list of `base` alone. -/
def init (base : Nat) (h : Heap) : Heap :=
  if h.freep = 0 then { h with mem := Function.update h.mem base ⟨base,0⟩, freep := base } else h

def nunits (nbytes : Nat) : Nat := (nbytes + 8 - 1) % 2 ^ 32 / 8 + 1

/-- `malloc`: the heap then, and the address or null. -/
def malloc (base : Nat) (sbrk : Sbrk) (turns : Nat) (h : Heap) (nbytes : Nat) : Option (Heap × Nat) :=
  let h := init base h
  search sbrk (nunits nbytes) turns h h.freep (h.mem h.freep).ptr

end Osce.Umalloc
