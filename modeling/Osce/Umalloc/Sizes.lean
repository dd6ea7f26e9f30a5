import Osce.Umalloc.Integrity
import Osce.Vm.Sbrk

/-!
The sizes that `malloc` computes. The number of units and the number of bytes that `morecore` asks for are unsigned words, `sbrk` takes the bytes as a
signed `int`, and `growproc` succeeds for a negative amount and for none.
-/
namespace Osce.Umalloc
open Osce.Vm (KERNBASE uint)

def int32 (w : Nat) : Int := if w < 2 ^ 31 then w else w - 2 ^ 32

/-- What `allocuvm` returns; `room` tells whether there are pages for the new size. -/
def allocuvm (room : Nat → Bool) (oldsz newsz : Nat) : Nat :=
  if newsz ≥ KERNBASE then 0 else if newsz < oldsz then oldsz else if room newsz then newsz else 0

def deallocuvm (oldsz newsz : Nat) : Nat := if newsz ≥ oldsz then oldsz else newsz

/-- The size of the process after `growproc`, or failure. -/
def growproc (room : Nat → Bool) (sz : Nat) (n : Int) : Option Nat :=
  if n > 0 then
    let sz := allocuvm room sz (uint (sz + n))
    if sz = 0 then none else some sz
  else if n < 0 then
    let sz := deallocuvm sz (uint (sz + n))
    if sz = 0 then none else some sz
  else some sz

/-- `sys_sbrk`: the old size. -/
def sbrk (room : Nat → Bool) : Sbrk := fun sz n => (growproc room sz (int32 n)).map fun _ => sz

section
open Osce.Lib Prog
variable {h : Handler Vm.VmSig Vm.Mem} {m : Vm.Mem} {d sz : Nat}

theorem wp_deallocuvm_size (oldsz newsz : Nat) :
    Wp h (fun _ => True) (Vm.deallocuvm d oldsz newsz) (fun r _ => r = deallocuvm oldsz newsz) m := by
  rw [Vm.deallocuvm,deallocuvm]
  split
  · exact (wp_pure ..).mpr rfl
  · rw [wp_bind]
    exact wp_any fun _ _ => (wp_pure ..).mpr rfl

theorem wp_allocuvm_size (oldsz newsz : Nat) :
    Wp h (fun _ => True) (Vm.allocuvm d oldsz newsz) (fun r _ => ∃ room, r = allocuvm room oldsz newsz) m := by
  rw [Vm.allocuvm]
  split
  next high => exact (wp_pure ..).mpr ⟨fun _ => true,by rw [allocuvm,if_pos high]⟩
  next low =>
    split
    next smaller => exact (wp_pure ..).mpr ⟨fun _ => true,by rw [allocuvm,if_neg low,if_pos smaller]⟩
    next larger =>
      rw [wp_bind]
      refine wp_any fun done _ => ?_
      split
      next => exact (wp_pure ..).mpr ⟨fun _ => true,by rw [allocuvm,if_neg low,if_neg larger,if_pos rfl]⟩
      next =>
        rw [wp_bind]
        exact wp_any fun _ _ => (wp_pure ..).mpr ⟨fun _ => false,by rw [allocuvm,if_neg low,if_neg larger]; rfl⟩

/-- The kernel's `growproc` leaves the size that `growproc` here tells, whatever the memory. -/
theorem wp_growproc_size (n : Int) : Wp h (fun _ => True) (Vm.growproc d sz n)
    (fun r _ => ∃ room, growproc room sz n = if r.1 = 0 then some r.2 else none) m := by
  have commit (m : Vm.Mem) (sz' : Nat) : Wp h (fun _ => True) (Vm.growproc_commit d sz') (fun r _ => r = (0,sz')) m := by
    rw [Vm.growproc_commit,wp_bind]
    exact wp_any fun _ _ => (wp_pure ..).mpr rfl
  have done (m : Vm.Mem) (sz' : Nat) : Wp h (fun _ => True) (if sz' = 0 then pure (-1,sz) else Vm.growproc_commit d sz')
      (fun r _ => (if sz' = 0 then none else some sz') = if r.1 = 0 then some r.2 else none) m := by
    split
    · exact (wp_pure ..).mpr rfl
    · refine wp_mono (commit m sz') fun r _ same => ?_
      rw [same]
      rfl
  rw [Vm.growproc]
  split
  next up =>
    rw [wp_bind]
    refine wp_mono (wp_allocuvm_size sz _) fun sz' m' returned => ?_
    obtain ⟨room,rfl⟩ := returned
    refine wp_mono (done m' _) fun r _ same => ⟨room,?_⟩
    rw [growproc,if_pos up]
    exact same
  next notUp =>
    split
    next down =>
      rw [wp_bind]
      refine wp_mono (wp_deallocuvm_size sz _) fun sz' m' returned => ?_
      refine wp_mono (done m' _) fun r _ same => ⟨fun _ => true,?_⟩
      rw [growproc,if_neg notUp,if_pos down,← returned]
      exact same
    next notDown =>
      refine wp_mono (commit m sz) fun r _ same => ⟨fun _ => true,?_⟩
      rw [growproc,if_neg notUp,if_neg notDown,same]
      rfl

end

/-- The bytes that `malloc` asks for when no block is large enough. -/
def request (nbytes : Nat) : Nat := max (nunits nbytes) 4096 * 8 % 2 ^ 32

/-- A free list in the memory of a process that `own` says was obtained from `sbrk`. -/
structure WellFormed (base : Nat) (h : Heap) (blocks : List Block) (own : Nat → Prop) : Prop where
  list : h.freep = 0 ∧ blocks = [] ∨ FreeList base h blocks
  positive : 0 < base
  room : base + 8 ≤ h.top
  user : h.top < KERNBASE
  within : ∀ b ∈ blocks, b.stop ≤ h.top
  obtained : ∀ b ∈ blocks, ∀ x, b.addr ≤ x → x < b.stop → own x

/-- The computations lose nothing, and a block that `malloc` returns has the bytes and is made of memory that was obtained before or by this call. -/
def Sound (nbytes : Nat) : Prop :=
  nunits nbytes = (nbytes + 8 - 1) / 8 + 1 ∧ int32 (request nbytes) = max (nunits nbytes) 4096 * 8 ∧
    ∀ base h blocks own room turns h' p, WellFormed base h blocks own → malloc base (sbrk room) turns h nbytes = some (h',p) → p ≠ 0 →
      p + nbytes ≤ p - 8 + 8 * (h'.mem (p - 8)).size ∧
        ∀ x, p - 8 ≤ x → x < p - 8 + 8 * (h'.mem (p - 8)).size →
          own x ∨ ∃ sz, growproc room h.top (int32 (request nbytes)) = some sz ∧ h.top ≤ x ∧ x < sz

section
variable {base n turns : Nat} {b : Block} {blocks : List Block} {h h' : Heap} {own : Nat → Prop} {room : Nat → Bool} {nbytes p : Nat}

theorem units_exact (small : nbytes < 2 ^ 31 - 15) :
    nunits nbytes = (nbytes + 8 - 1) / 8 + 1 ∧ request nbytes = max (nunits nbytes) 4096 * 8 ∧ request nbytes < 2 ^ 31 := by
  have units : nunits nbytes = (nbytes + 8 - 1) / 8 + 1 := by rw [nunits,Nat.mod_eq_of_lt (by omega)]
  have less : max (nunits nbytes) 4096 * 8 < 2 ^ 31 := by
    rw [units]
    omega
  have exact' : request nbytes = max (nunits nbytes) 4096 * 8 := Nat.mod_eq_of_lt (by omega)
  exact ⟨units,exact',exact' ▸ less⟩

theorem growproc_up {sz sz' k : Nat} (positive : 0 < k) (less : k < 2 ^ 31) (user : sz < KERNBASE) (grown : growproc room sz k = some sz') : sz' = sz + k := by
  have sum : uint (sz + k) = sz + k := by
    rw [uint]
    simp only [KERNBASE] at user
    omega
  rw [growproc,if_pos (by omega),sum,allocuvm,if_neg (show ¬sz + k < sz by omega)] at grown
  by_cases high : sz + k ≥ KERNBASE
  · simp [high] at grown
  · cases enough : room (sz + k) with
    | false => simp [high,enough] at grown
    | true =>
      simp only [high,enough,if_false,if_true] at grown
      split at grown
      · cases grown
      · exact (Option.some.inj grown).symm

theorem taken_spec {pre post : List Block} (list : FreeList base h (pre ++ b :: post)) (large : n ≤ b.size) (enough : nbytes + 8 ≤ 8 * n)
    {result : Heap × Nat} (run : take h n (last base pre) b.addr = result) :
    result.2 + nbytes ≤ result.2 - 8 + 8 * (result.1.mem (result.2 - 8)).size ∧
      b.addr ≤ result.2 - 8 ∧ result.2 - 8 + 8 * (result.1.mem (result.2 - 8)).size = b.stop := by
  obtain ⟨h',took,-,size,-⟩ := take_spec list large (by omega)
  rw [← run,took]
  simp only [Nat.add_sub_cancel,size]
  have stop := taken_stop large
  rw [Block.stop] at stop
  refine ⟨by omega,Nat.le_add_right _ _,stop⟩

theorem init_top (base : Nat) (h : Heap) : (init base h).top = h.top := by
  rw [init]
  split <;> rfl

/-- Below 2 GB a block is made of memory that was obtained for it. -/
theorem malloc_obtained (wellFormed : WellFormed base h blocks own) (small : nbytes < 2 ^ 31 - 15)
    (run : malloc base (sbrk room) turns h nbytes = some (h',p)) (some' : p ≠ 0) :
    p + nbytes ≤ p - 8 + 8 * (h'.mem (p - 8)).size ∧
      ∀ x, p - 8 ≤ x → x < p - 8 + 8 * (h'.mem (p - 8)).size →
        own x ∨ ∃ sz, growproc room h.top (int32 (request nbytes)) = some sz ∧ h.top ≤ x ∧ x < sz := by
  obtain ⟨-,exact',less⟩ := units_exact small
  obtain ⟨enough,fits⟩ := nunits_spec (by omega : nbytes < 2 ^ 32 - 15)
  have valid : Valid base h [] blocks := ⟨wellFormed.list.imp (fun none => ⟨none.1,none.2,rfl⟩) id,wellFormed.within,wellFormed.room,by simp,by simp,by simp,
    by simp,.nil⟩
  obtain ⟨list,valid',-⟩ := valid.init wellFormed.positive
  have more := malloc_more run (2 * blocks.length + 4)
  rw [malloc] at more
  by_cases large : ∃ b ∈ blocks, nunits nbytes ≤ b.size
  · obtain ⟨pre,b,post,rfl,large,found⟩ := search_finds (sbrk room) list (by omega) large (by omega : _ ≤ turns + (2 * blocks.length + 4))
    simp only [found,Option.some.injEq] at more
    obtain ⟨bytes,low,high⟩ := taken_spec list large enough more
    dsimp only at low high
    exact ⟨bytes,fun x from' to' => .inl (wellFormed.obtained b (by simp) x (by omega) (by omega))⟩
  · have tooSmall : ∀ b ∈ blocks, b.size < nunits nbytes := fun b mem => Nat.lt_of_not_le fun isLarge => large ⟨b,mem,isLarge⟩
    obtain ⟨k,isK⟩ : ∃ k, turns + (2 * blocks.length + 4) = k + 1 + blocks.length := ⟨turns + blocks.length + 3,by omega⟩
    simp only [isK,search_none list (by omega) tooSmall] at more
    cases grown : growproc room h.top (int32 (request nbytes)) with
    | none =>
      have failed : sbrk room (init base h).top (max (nunits nbytes) 4096 * 8 % 2 ^ 32) = none := by
        rw [sbrk,init_top,← request,grown]
        rfl
      rw [morecore_none failed] at more
      simp only [Option.bind_eq_bind,Option.bind_some,Option.pure_def,Option.some.injEq,Prod.mk.injEq] at more
      exact absurd more.2.symm some'
    | some sz =>
      have gave : sbrk room (init base h).top (max (nunits nbytes) 4096 * 8 % 2 ^ 32) = some h.top := by
        rw [sbrk,init_top,← request,grown]
        rfl
      have size : sz = h.top + request nbytes := by
        rw [int32,if_pos less] at grown
        exact growproc_up (by rw [exact']; omega) less wellFormed.user grown
      obtain ⟨h₁,ran,list₁,-⟩ := morecore_spec list valid'.within valid'.room fits gave (init_top base h).le (by omega : blocks.length + 2 ≤ k)
      obtain ⟨c,mem,big⟩ := glued_large blocks (core h.top (nunits nbytes))
      have shorter := glued_length blocks (core h.top (nunits nbytes))
      have wide : nunits nbytes ≤ c.size := (Nat.le_max_left _ _).trans big
      obtain ⟨pre,b,post,split',large₁,found⟩ := search_finds (sbrk room) list₁ (by omega) ⟨c,mem,wide⟩ (by omega : _ ≤ k)
      simp only [ran,Option.bind_eq_bind,Option.bind_some,found,Option.some.injEq] at more
      rw [split'] at list₁
      obtain ⟨bytes,low,high⟩ := taken_spec list₁ large₁ enough more
      dsimp only at low high
      -- the new memory is [top, sz)
      have owned : ∀ c ∈ glued blocks (core h.top (nunits nbytes)), ∀ x, c.addr ≤ x → x < c.stop → own x ∨ h.top ≤ x ∧ x < sz := by
        have isPlaced : glued blocks (core h.top (nunits nbytes)) = placed blocks (core h.top (nunits nbytes)) [] := by simp [placed,joined]
        rw [isPlaced]
        refine placed_all (fun a b first second touch x from' to' => ?_) (fun c mem x from' to' => .inl (wellFormed.obtained c mem x from' to'))
          (fun x from' to' => .inr ⟨from',?_⟩) (by simp)
        · by_cases inFirst : x < a.stop
          · exact first x from' inFirst
          · refine second x (by omega) ?_
            simp only [Block.stop] at touch to' ⊢
            omega
        · simp only [core,Block.stop] at to'
          omega
      refine ⟨bytes,fun x from' to' => (owned b (by simp [split']) x (by omega) (by omega)).imp id fun new => ⟨sz,rfl,new⟩⟩

end

/-- The sizes are right exactly below 2 GB - 15. -/
theorem sizes_exact (nbytes : Nat) (word : nbytes < 2 ^ 32) : Sound nbytes ↔ nbytes < 2 ^ 31 - 15 := by
  constructor
  · rintro ⟨units,signed,-⟩
    by_contra large
    rw [int32,request,units] at signed
    split at signed
    all_goals omega
  · intro small
    obtain ⟨units,exact',less⟩ := units_exact small
    refine ⟨units,?_,fun base h blocks own room turns h' p wellFormed run some' => malloc_obtained wellFormed small run some'⟩
    rw [int32,if_pos less,exact']
    push_cast
    rfl

theorem sizes_exact_hundred : Sound 100 := (sizes_exact 100 (by decide)).mpr (by decide)

/-- A heap without blocks in a process whose size is not a multiple of the page size. -/
def unaligned : Heap := ⟨fun _ => ⟨0,0⟩,0,4104⟩

/-- For 0xFFFFFFFF bytes the block that is returned has only a header, and for 0x80000000 bytes there is no memory: `sbrk` has taken a negative amount. -/
theorem malloc_wraps :
    (malloc 16 (sbrk fun _ => true) 8 unaligned 0xFFFFFFFF).map (fun r => (r.2,(r.1.mem (r.2 - 8)).size)) = some (36872,1) ∧
      (malloc 16 (sbrk fun _ => true) 8 unaligned 0x80000000).map (fun r => (r.2,(r.1.mem (r.2 - 8)).size)) = some (4112,2 ^ 28 + 1) ∧
      int32 (request 0x80000000) = -2147483640 ∧ growproc (fun _ => true) 4104 (-2147483640) = some 4104 ∧
      WellFormed 16 unaligned [] fun _ => False := by
  refine ⟨by decide +kernel,by decide +kernel,by decide,by decide,?_⟩
  exact ⟨.inl ⟨rfl,rfl⟩,by decide,by decide,by decide,by simp,by simp⟩

end Osce.Umalloc
