import Osce.Umalloc.FreeList

/-!
The search of `malloc` goes once around the free list. It finds the first block that is large enough, or it comes back to where it started and asks for more
memory, which makes one of the free blocks large enough.
-/
namespace Osce.Umalloc

open Function (update update_of_ne update_self)

variable {base a e n turns : Nat} {b : Block} {bs blocks pre post : List Block} {h : Heap} {sbrk : Sbrk}

theorem search_walk (linked : Linked h.mem a bs e) (small : ∀ b ∈ bs, b.size < n) (other : ∀ b ∈ bs, b.addr ≠ h.freep) :
    search sbrk n (turns + bs.length) h a (h.mem a).ptr = search sbrk n turns h (last a bs) (h.mem (last a bs)).ptr := by
  induction bs generalizing a with
  | nil => rfl
  | cons b bs ih =>
    have less := small b (by simp)
    rw [List.length_cons,← Nat.add_assoc,search,linked.1,linked.2.1,if_neg (by omega),if_neg (other b (by simp))]
    exact ih linked.2.2 (fun c mem => small c (by simp [mem])) fun c mem => other c (by simp [mem])

theorem search_here {prevp : Nat} (size : (h.mem b.addr).size = b.size) (large : n ≤ b.size) :
    search sbrk n (turns + 1) h prevp b.addr = some (take h n prevp b.addr) := by
  rw [search,size,if_pos large]

theorem search_base {prevp : Nat} (empty : (h.mem base).size = 0) (some : 0 < n) (other : base ≠ h.freep) :
    search sbrk n (turns + 1) h prevp base = search sbrk n turns h base (h.mem base).ptr := by
  rw [search,empty,if_neg (by omega),if_neg other]

theorem first_large (large : ∃ b ∈ bs, n ≤ b.size) : ∃ u b v, bs = u ++ b :: v ∧ (∀ c ∈ u, c.size < n) ∧ n ≤ b.size := by
  induction bs with
  | nil => simp at large
  | cons c bs ih =>
    by_cases here : n ≤ c.size
    · exact ⟨[],c,bs,rfl,by simp,here⟩
    · obtain ⟨u,b,v,rfl,small,large⟩ := ih (by simpa [here] using large)
      exact ⟨c :: u,b,v,rfl,List.forall_mem_cons.mpr ⟨by omega,small⟩,large⟩

theorem FreeList.freep_ne (list : FreeList base h (pre ++ post)) (isLast : h.freep = last base pre) : ∀ b ∈ post, b.addr ≠ h.freep := by
  intro b mem
  have := list.ordered.last_lt b mem
  omega

theorem FreeList.freep_base (list : FreeList base h (pre ++ post)) (isLast : h.freep = last base pre) (some : pre ≠ []) : base ≠ h.freep := by
  obtain ⟨-,none⟩ | ⟨c,mem,same⟩ := last_mem base pre
  · exact absurd none some
  · have := list.ordered.above c (by simp [mem])
    omega

theorem search_wrap {prevp : Nat} {u v : List Block} (list : FreeList base h (u ++ v ++ post)) (isLast : h.freep = last base (u ++ v))
    (some : v ≠ []) (small : ∀ c ∈ u, c.size < n) (positive : 0 < n) :
    search sbrk n (turns + u.length + 1) h prevp base = search sbrk n turns h (last base u) (h.mem (last base u)).ptr := by
  obtain ⟨first,second,between⟩ := list.ordered.append
  obtain ⟨-,-,apart⟩ := first.append
  rw [search_base list.empty positive (list.freep_base isLast (by simp [some]))]
  obtain ⟨⟨_,linked⟩,-⟩ := list.linked.split.1.choose_spec.split
  refine search_walk linked small fun c mem same => ?_
  rw [isLast,last_append] at same
  obtain ⟨-,none⟩ | ⟨d,mem',isD⟩ := last_mem (last base u) v
  · exact some none
  · have gap := apart c mem d mem'
    rw [Block.stop] at gap
    omega

theorem search_finds (sbrk : Sbrk) (list : FreeList base h blocks) (positive : 0 < n) (large : ∃ b ∈ blocks, n ≤ b.size) (enough : blocks.length + 2 ≤ turns) :
    ∃ pre b post, blocks = pre ++ b :: post ∧ n ≤ b.size ∧
      search sbrk n turns h h.freep (h.mem h.freep).ptr = some (take h n (last base pre) b.addr) := by
  obtain ⟨l1,l2,rfl,isLast⟩ := list.current
  have others := list.freep_ne isLast
  obtain ⟨⟨_,linked1⟩,linked2⟩ := list.linked.split
  rw [List.length_append] at enough
  by_cases ahead : ∃ b ∈ l2, n ≤ b.size
  · obtain ⟨u,b,v,rfl,small,large⟩ := first_large ahead
    refine ⟨l1 ++ u,b,v,by simp,large,?_⟩
    rw [List.length_append] at enough
    obtain ⟨k,rfl⟩ : ∃ k, turns = k + 1 + u.length := ⟨turns - u.length - 1,by omega⟩
    obtain ⟨toB,size,-⟩ := linked_append.mp linked2
    rw [isLast,search_walk toB small fun c mem => others c (by simp [mem]),← last_append]
    rw [last_append,toB.last_ptr,← last_append]
    exact search_here size large
  · have behind : ∃ b ∈ l1, n ≤ b.size := by
      obtain ⟨b,mem,large⟩ := large
      exact ⟨b,(List.mem_append.mp mem).resolve_right fun second => ahead ⟨b,second,large⟩,large⟩
    have tooSmall : ∀ b ∈ l2, b.size < n := fun b mem => Nat.lt_of_not_le fun large => ahead ⟨b,mem,large⟩
    obtain ⟨u,b,v,rfl,small,large⟩ := first_large behind
    refine ⟨u,b,v ++ l2,by simp,large,?_⟩
    simp only [List.length_append,List.length_cons] at enough
    obtain ⟨k,rfl⟩ : ∃ k, turns = k + 1 + u.length + 1 + l2.length := ⟨turns - u.length - l2.length - 2,by omega⟩
    obtain ⟨toB,size,-⟩ := linked_append.mp linked1
    rw [isLast,search_walk linked2 tooSmall others,linked2.last_ptr,search_wrap list isLast (by simp) small positive,toB.last_ptr]
    exact search_here size large

theorem search_none (list : FreeList base h blocks) (positive : 0 < n) (small : ∀ b ∈ blocks, b.size < n) :
    search sbrk n (turns + 1 + blocks.length) h h.freep (h.mem h.freep).ptr = (do
      match ← morecore sbrk turns h n with
      | none => pure (h,0)
      | some h => search sbrk n turns h h.freep (h.mem h.freep).ptr) := by
  have back {prevp : Nat} (size : (h.mem h.freep).size < n) :
      search sbrk n (turns + 1) h prevp h.freep = (do
        match ← morecore sbrk turns h n with
        | none => pure (h,0)
        | some h => search sbrk n turns h h.freep (h.mem h.freep).ptr) := by
    exact (if_neg (by omega)).trans (if_pos rfl)
  obtain ⟨l1,l2,rfl,isLast⟩ := list.current
  have others := list.freep_ne isLast
  obtain ⟨⟨_,linked1⟩,linked2⟩ := list.linked.split
  have small2 : ∀ b ∈ l2, b.size < n := fun b mem => small b (by simp [mem])
  rcases List.eq_nil_or_concat l1 with rfl | ⟨u,f,rfl⟩
  · rw [List.nil_append,isLast,search_walk linked2 small2 others,linked2.last_ptr]
    rw [last] at isLast
    rw [← isLast]
    exact back (by rw [isLast,list.empty]; exact positive)
  · rw [List.concat_eq_append] at *
    have isF : h.freep = f.addr := by rw [isLast,last_append]; rfl
    have size := small f (by simp)
    obtain ⟨toF,sizeF,-⟩ := linked_append.mp linked1
    have turns' : turns + 1 + (u ++ [f] ++ l2).length = turns + 1 + u.length + 1 + l2.length := by simp; omega
    rw [turns',isLast,search_walk linked2 small2 others,linked2.last_ptr,
      search_wrap list isLast (by simp) (fun c mem => small c (by simp [mem])) positive,toF.last_ptr,← isF]
    exact back (by rw [isF,sizeF]; exact size)

def rest (b : Block) (n : Nat) : List Block := if b.size = n then [] else [⟨b.addr,b.size - n⟩]

def taken (b : Block) (n : Nat) : Block := ⟨b.addr + 8 * (b.size - n),n⟩

theorem taken_stop (large : n ≤ b.size) : (taken b n).stop = b.stop := by
  simp only [taken,Block.stop]
  omega

theorem rest_spec : ∀ c ∈ rest b n, c.addr = b.addr ∧ c.stop = (taken b n).addr := by
  intro c mem
  rw [rest] at mem
  split at mem
  · cases mem
  · rw [List.mem_singleton.mp mem]
    exact ⟨rfl,rfl⟩

theorem rest_ordered (ordered : Ordered base (pre ++ b :: post)) (large : n ≤ b.size) (positive : 0 < n) :
    Ordered base (pre ++ (rest b n ++ post)) := by
  obtain ⟨first,second,between⟩ := ordered.append
  obtain ⟨-,high,gaps,third⟩ := ordered_cons.mp second
  have apart : ∀ c ∈ pre, ∀ d ∈ rest b n ++ post, c.stop < d.addr := by
    intro c mem d mem'
    rcases List.mem_append.mp mem' with left | later
    · rw [(rest_spec d left).1]
      exact between c mem b (by simp)
    · exact between c mem d (by simp [later])
  refine ordered_append first ?_ apart
  rw [rest]
  split
  · exact third
  · refine ordered_cons.mpr ⟨?_,high,fun d mem => ?_,third⟩
    · show 0 < b.size - n
      omega
    · have gap := gaps d mem
      simp only [Block.stop] at gap ⊢
      omega

theorem take_all (list : FreeList base h (pre ++ b :: post)) (all : b.size = n) :
    ∃ h', take h n (last base pre) b.addr = (h',b.addr + 8) ∧ FreeList base h' (pre ++ post) ∧ (h'.mem b.addr).size = n ∧ h'.top = h.top ∧
      ∀ x, x ≠ last base pre → h'.mem x = h.mem x := by
  obtain ⟨toB,size,fromB⟩ := linked_append.mp list.linked
  obtain ⟨first,second,between⟩ := list.ordered.append
  obtain ⟨-,high,gaps,third⟩ := ordered_cons.mp second
  have lower : last base pre < b.addr := list.ordered.last_lt b (by simp)
  have linked := toB.relink rfl first.nodup (h.mem b.addr).ptr
  obtain ⟨mem1,isMem1⟩ : ∃ m, m = update h.mem (last base pre) { h.mem (last base pre) with ptr := (h.mem b.addr).ptr } := ⟨_,rfl⟩
  have same {x : Nat} (ne : x ≠ last base pre) : mem1 x = h.mem x := by rw [isMem1,update_of_ne ne]
  have atLast : mem1 (last base pre) = { h.mem (last base pre) with ptr := (h.mem b.addr).ptr } := by rw [isMem1,update_self]
  have run : take h n (last base pre) b.addr = ({ h with mem := mem1, freep := last base pre },b.addr + 8) := by
    rw [take,if_pos (size.trans all),isMem1]
  rw [← isMem1] at linked
  refine ⟨_,run,⟨linked.join (fromB.congr (by rw [atLast]) fun c mem => same ?_),?_,?_,pre,post,rfl,rfl⟩,?_,rfl,fun x => same⟩
  · have gap := gaps c mem
    rw [Block.stop] at gap
    omega
  · by_cases here : base = last base pre
    · rw [here] at list ⊢
      exact (congrArg Header.size atLast).trans list.empty
    · exact (congrArg Header.size (same here)).trans list.empty
  · exact ordered_append first third fun c mem d mem' => between c mem d (by simp [mem'])
  · exact (congrArg Header.size (same (by omega))).trans (size.trans all)

theorem take_part_eq (prevp : Nat) (size : (h.mem b.addr).size = b.size) (more : n < b.size) :
    ∃ mem1, take h n prevp b.addr = ({ h with mem := mem1, freep := prevp },(taken b n).addr + 8) ∧
      mem1 b.addr = ⟨(h.mem b.addr).ptr,b.size - n⟩ ∧ (mem1 (taken b n).addr).size = n ∧
      ∀ x, x ≠ b.addr → x ≠ (taken b n).addr → mem1 x = h.mem x := by
  have unequal : ¬(h.mem b.addr).size = n := by omega
  have other : b.addr ≠ b.addr + 8 * (b.size - n) := by omega
  rw [take,if_neg unequal,size]
  refine ⟨_,rfl,?_,?_,fun x ne ne' => ?_⟩
  · rw [update_of_ne other,update_self]
  · rw [taken,update_self]
  · rw [taken] at ne'
    rw [update_of_ne ne',update_of_ne ne]

theorem take_part (list : FreeList base h (pre ++ b :: post)) (more : n < b.size) (positive : 0 < n) :
    ∃ h', take h n (last base pre) b.addr = (h',(taken b n).addr + 8) ∧ FreeList base h' (pre ++ ⟨b.addr,b.size - n⟩ :: post) ∧
      (h'.mem (taken b n).addr).size = n ∧ h'.top = h.top ∧ ∀ x, x ≠ b.addr → x ≠ (taken b n).addr → h'.mem x = h.mem x := by
  obtain ⟨toB,size,fromB⟩ := linked_append.mp list.linked
  obtain ⟨first,second,between⟩ := list.ordered.append
  obtain ⟨-,high,gaps,third⟩ := ordered_cons.mp second
  have beyond : b.addr < (taken b n).addr := by simp only [taken]; omega
  have inside : (taken b n).addr < b.stop := by simp only [taken,Block.stop]; omega
  obtain ⟨mem1,run,atB,size1,same⟩ := take_part_eq (last base pre) size more
  have ordered := rest_ordered list.ordered (Nat.le_of_lt more) positive
  rw [rest,if_neg (by omega)] at ordered
  have below : ∀ c ∈ pre, c.addr < b.addr := fun c mem => by
    have gap := between c mem b (by simp)
    rw [Block.stop] at gap
    omega
  have toB1 : Linked mem1 base pre b.addr := toB.congr (by rw [same base (by omega) (by omega)]) fun c mem => by
    have low := below c mem
    exact same _ (by omega) (by omega)
  have fromB1 : Linked mem1 b.addr post base := fromB.congr (by rw [atB]) fun c mem => by
    have gap := gaps c mem
    rw [Block.stop] at gap inside
    exact same _ (by omega) (by omega)
  have empty1 : (mem1 base).size = 0 := by
    rw [same base (by omega) (by omega)]
    exact list.empty
  exact ⟨_,run,⟨linked_append.mpr ⟨toB1,congrArg Header.size atB,fromB1⟩,empty1,ordered,pre,_,rfl,rfl⟩,size1,rfl,same⟩

/-- A block is taken from the free list: its header gives its size, and only it, the block it is taken from and the node before that have changed. -/
theorem take_spec (list : FreeList base h (pre ++ b :: post)) (large : n ≤ b.size) (positive : 0 < n) :
    ∃ h', take h n (last base pre) b.addr = (h',(taken b n).addr + 8) ∧ FreeList base h' (pre ++ (rest b n ++ post)) ∧
      (h'.mem (taken b n).addr).size = n ∧ h'.top = h.top ∧
      ∀ x, x ≠ last base pre → x ≠ b.addr → x ≠ (taken b n).addr → h'.mem x = h.mem x := by
  by_cases all : b.size = n
  · obtain ⟨h',run,list',size,top,same⟩ := take_all list all
    have isB : (taken b n).addr = b.addr := by simp [taken,all]
    rw [isB,rest,if_pos all]
    exact ⟨h',run,list',size,top,fun x ne _ _ => same x ne⟩
  · obtain ⟨h',run,list',size,top,same⟩ := take_part list (by omega) positive
    rw [rest,if_neg all]
    exact ⟨h',run,list',size,top,fun x _ => same x⟩

theorem FreeList.congr {h' : Heap} (list : FreeList base h blocks) (same : ∀ x, x = base ∨ (∃ b ∈ blocks, x = b.addr) → h'.mem x = h.mem x)
    (freep : h'.freep = h.freep) : FreeList base h' blocks := by
  have atBase : h'.mem base = h.mem base := same base (.inl rfl)
  refine ⟨list.linked.congr (by rw [atBase]) fun b mem => same _ (.inr ⟨b,mem,rfl⟩),by rw [atBase]; exact list.empty,list.ordered,?_⟩
  rw [freep]
  exact list.current

theorem glued_large (pre : List Block) (b : Block) : ∃ c ∈ glued pre b, b.size ≤ c.size := by
  rw [glued]
  split
  · exact ⟨b,by simp,Nat.le_refl _⟩
  · split
    · exact ⟨_,List.mem_append_right _ (List.mem_singleton_self _),Nat.le_add_left _ _⟩
    · exact ⟨b,by simp,Nat.le_refl _⟩

theorem morecore_none (grown : sbrk h.top (max n 4096 * 8 % 2 ^ 32) = none) : morecore sbrk turns h n = some none := by
  simp only [morecore,grown]

def core (hp n : Nat) : Block := ⟨hp,max n 4096⟩

/-- With new memory above all blocks, one of the free blocks has at least n units, and only its header and that of the last node have changed. -/
theorem morecore_spec {hp : Nat} (list : FreeList base h blocks) (within : ∀ b ∈ blocks, b.stop ≤ h.top) (room : base + 8 ≤ h.top) (fits : n * 8 < 2 ^ 32)
    (grown : sbrk h.top (max n 4096 * 8 % 2 ^ 32) = some hp) (fresh : h.top ≤ hp) (enough : blocks.length + 2 ≤ turns) :
    ∃ h', morecore sbrk turns h n = some (some h') ∧ FreeList base h' (glued blocks (core hp n)) ∧ h'.top = (core hp n).stop ∧
      ∀ x, x ≠ hp → x ≠ last base blocks → h'.mem x = h.mem x := by
  have below : ∀ b ∈ blocks, b.addr ≠ hp := by
    intro b mem
    have stop := within b mem
    have some := list.ordered.positive b mem
    rw [Block.stop] at stop
    omega
  have noWrap : max n 4096 * 8 % 2 ^ 32 = max n 4096 * 8 := Nat.mod_eq_of_lt (by omega)
  have list1 : FreeList base { h with mem := update h.mem hp { h.mem hp with size := max n 4096 }, top := hp + max n 4096 * 8 } (blocks ++ []) := by
    rw [List.append_nil]
    refine list.congr (fun x node => update_of_ne ?_ _ _) rfl
    rintro rfl
    rcases node with rfl | ⟨b,mem,same⟩
    · omega
    · exact below b mem same.symm
  obtain ⟨h',run,list',top,same⟩ := free_spec (b := core hp n) list1 (by simp [core]) (by simp only [core]; omega) (by simp only [core]; omega)
    (fun c mem => by have := within c mem; simp only [core]; omega) (by simp) (by simpa using enough)
  refine ⟨h',?_,?_,?_,fun x ne ne' => ?_⟩
  · rw [noWrap] at grown
    simp only [morecore,noWrap,grown]
    rw [show hp + 8 = (core hp n).addr + 8 from rfl,run]
    rfl
  · simpa [placed,joined] using list'
  · rw [top,Block.stop,Nat.mul_comm 8]
    rfl
  · rw [same x ne ne']
    exact update_of_ne ne _ _

theorem slot_more {mem : Nat → Header} {bp p r : Nat} (run : slot mem bp turns p = some r) (k : Nat) : slot mem bp (turns + k) p = some r := by
  induction turns generalizing p with
  | zero => cases run
  | succ turns ih =>
    rw [Nat.add_right_comm,slot]
    rw [slot] at run
    split
    next here =>
      rw [if_pos here] at run
      exact run
    next here =>
      rw [if_neg here] at run
      split
      next there =>
        rw [if_pos there] at run
        exact run
      next there =>
        rw [if_neg there] at run
        exact ih run

theorem free_more {ap : Nat} {h' : Heap} (run : free turns h ap = some h') (k : Nat) : free (turns + k) h ap = some h' := by
  simp only [free,Option.bind_eq_bind,Option.bind_eq_some_iff] at run ⊢
  obtain ⟨p,found,done⟩ := run
  exact ⟨p,slot_more found k,done⟩

theorem morecore_more {r : Option Heap} (run : morecore sbrk turns h n = some r) (k : Nat) : morecore sbrk (turns + k) h n = some r := by
  simp only [morecore] at run ⊢
  split
  next failed =>
    simp only [failed] at run
    exact run
  next hp grown =>
    simp only [grown,Option.bind_eq_bind,Option.bind_eq_some_iff] at run ⊢
    obtain ⟨h',ran,done⟩ := run
    exact ⟨h',free_more ran k,done⟩

theorem search_more {prevp p : Nat} {r : Heap × Nat} (run : search sbrk n turns h prevp p = some r) (k : Nat) :
    search sbrk n (turns + k) h prevp p = some r := by
  induction turns generalizing h prevp p with
  | zero => cases run
  | succ turns ih =>
    rw [Nat.add_right_comm,search]
    rw [search] at run
    split
    next large =>
      rw [if_pos large] at run
      exact run
    next small =>
      rw [if_neg small] at run
      split
      next back =>
        rw [if_pos back] at run
        simp only [Option.bind_eq_bind,Option.bind_eq_some_iff] at run ⊢
        obtain ⟨more,ran,run⟩ := run
        refine ⟨more,morecore_more ran k,?_⟩
        cases more with
        | none => exact run
        | some h' => exact ih run
      next on =>
        rw [if_neg on] at run
        exact ih run

end Osce.Umalloc
