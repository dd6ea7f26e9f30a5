import Osce.Umalloc.Code

/-!
The free list as a list of blocks: in the order of their addresses and with space between any two, linked from `base` through all of them and back.
-/
namespace Osce.Umalloc
open Function List

/-- A block: the address of its header, and its units. -/
structure Block where
  addr : Nat
  size : Nat
  deriving DecidableEq

def Block.stop (b : Block) : Nat := b.addr + 8 * b.size

variable {mem mem' : Nat → Header} {base a e bp turns : Nat} {b : Block} {bs pre post : List Block}

def last (a : Nat) : List Block → Nat
  | [] => a
  | b :: bs => last b.addr bs

/-- From a the pointers lead through the blocks and then to e. -/
def Linked (mem : Nat → Header) (a : Nat) : List Block → Nat → Prop
  | [], e => (mem a).ptr = e
  | b :: bs, e => (mem a).ptr = b.addr ∧ (mem b.addr).size = b.size ∧ Linked mem b.addr bs e

@[simp] theorem last_append (a : Nat) (pre post : List Block) : last a (pre ++ post) = last (last a pre) post := by
  induction pre generalizing a with
  | nil => rfl
  | cons b pre ih => exact ih b.addr

theorem last_mem (a : Nat) (bs : List Block) : last a bs = a ∧ bs = [] ∨ ∃ b ∈ bs, last a bs = b.addr := by
  induction bs generalizing a with
  | nil => exact .inl ⟨rfl,rfl⟩
  | cons b bs ih =>
    right
    obtain ⟨same,-⟩ | ⟨c,mem,same⟩ := ih b.addr
    · exact ⟨b,by simp,same⟩
    · exact ⟨c,by simp [mem],same⟩

theorem linked_append : Linked mem a (pre ++ b :: post) e ↔ Linked mem a pre b.addr ∧ (mem b.addr).size = b.size ∧ Linked mem b.addr post e := by
  induction pre generalizing a with
  | nil => exact Iff.rfl
  | cons c pre ih => simp only [cons_append,Linked,ih,and_assoc]

theorem Linked.last_ptr (linked : Linked mem a bs e) : (mem (last a bs)).ptr = e := by
  induction bs generalizing a with
  | nil => exact linked
  | cons b bs ih => exact ih linked.2.2

theorem Linked.congr {a' : Nat} (linked : Linked mem a bs e) (first : (mem' a').ptr = (mem a).ptr) (rest : ∀ b ∈ bs, mem' b.addr = mem b.addr) :
    Linked mem' a' bs e := by
  induction bs generalizing a a' with
  | nil => exact first.trans linked
  | cons b bs ih =>
    have here := rest b (by simp)
    exact ⟨first.trans linked.1,by rw [here]; exact linked.2.1,ih linked.2.2 (by rw [here]) fun c mem => rest c (by simp [mem])⟩

theorem Linked.relink (linked : Linked mem a pre e) {p : Nat} (isLast : p = last a pre) (distinct : (a :: pre.map Block.addr).Nodup) (e' : Nat) :
    Linked (update mem p { mem p with ptr := e' }) a pre e' := by
  subst isLast
  induction pre generalizing a with
  | nil => simp [Linked,last]
  | cons b pre ih =>
    rw [map_cons,nodup_cons] at distinct
    have other : a ≠ last b.addr pre := by
      obtain ⟨same,-⟩ | ⟨c,mem,same⟩ := last_mem b.addr pre
      · rw [same]
        rintro rfl
        exact distinct.1 (by simp)
      · rw [same]
        rintro rfl
        exact distinct.1 (mem_cons_of_mem _ (mem_map_of_mem mem))
    refine ⟨?_,?_,ih linked.2.2 distinct.2⟩
    · rw [last,update_of_ne other]
      exact linked.1
    · rw [last]
      by_cases here : b.addr = last b.addr pre
      · rw [← here,update_self]
        exact linked.2.1
      · rw [update_of_ne here]
        exact linked.2.1

/-- Blocks in the order of their addresses with space between them, all above the header at `base`. -/
structure Ordered (base : Nat) (blocks : List Block) : Prop where
  gaps : blocks.Pairwise fun b c => b.stop < c.addr
  positive : ∀ b ∈ blocks, 0 < b.size
  above : ∀ b ∈ blocks, base + 8 ≤ b.addr

structure FreeList (base : Nat) (h : Heap) (blocks : List Block) : Prop where
  linked : Linked h.mem base blocks base
  empty : (h.mem base).size = 0
  ordered : Ordered base blocks
  current : ∃ pre post, blocks = pre ++ post ∧ h.freep = last base pre

theorem Ordered.nodup {blocks : List Block} (ordered : Ordered base blocks) : (base :: blocks.map Block.addr).Nodup := by
  rw [nodup_cons]
  constructor
  · intro mem
    obtain ⟨b,isIn,same⟩ := mem_map.mp mem
    have := ordered.above b isIn
    omega
  · refine pairwise_map.mpr (ordered.gaps.imp fun {b c} gap => ?_)
    rw [Block.stop] at gap
    omega

theorem Ordered.append (ordered : Ordered base (pre ++ post)) : Ordered base pre ∧ Ordered base post ∧ ∀ b ∈ pre, ∀ c ∈ post, b.stop < c.addr := by
  obtain ⟨gaps,positive,above⟩ := ordered
  rw [pairwise_append] at gaps
  exact ⟨⟨gaps.1,fun b mem => positive b (by simp [mem]),fun b mem => above b (by simp [mem])⟩,
    ⟨gaps.2.1,fun b mem => positive b (by simp [mem]),fun b mem => above b (by simp [mem])⟩,gaps.2.2⟩

theorem ordered_append (first : Ordered base pre) (second : Ordered base post) (between : ∀ b ∈ pre, ∀ c ∈ post, b.stop < c.addr) :
    Ordered base (pre ++ post) := by
  refine ⟨pairwise_append.mpr ⟨first.gaps,second.gaps,between⟩,?_,?_⟩
  · exact forall_mem_append.mpr ⟨first.positive,second.positive⟩
  · exact forall_mem_append.mpr ⟨first.above,second.above⟩

theorem ordered_cons : Ordered base (b :: bs) ↔ 0 < b.size ∧ base + 8 ≤ b.addr ∧ (∀ c ∈ bs, b.stop < c.addr) ∧ Ordered base bs := by
  constructor
  · rintro ⟨gaps,positive,above⟩
    rw [pairwise_cons] at gaps
    exact ⟨positive b (by simp),above b (by simp),gaps.1,gaps.2,fun c mem => positive c (by simp [mem]),fun c mem => above c (by simp [mem])⟩
  · rintro ⟨some,high,first,rest⟩
    exact ⟨pairwise_cons.mpr ⟨first,rest.gaps⟩,forall_mem_cons.mpr ⟨some,rest.positive⟩,forall_mem_cons.mpr ⟨high,rest.above⟩⟩

theorem Ordered.last_lt (ordered : Ordered base (pre ++ post)) : ∀ b ∈ post, last base pre < b.addr := by
  intro b mem
  obtain ⟨first,second,between⟩ := ordered.append
  obtain ⟨same,-⟩ | ⟨c,mem',same⟩ := last_mem base pre
  · have := second.above b mem
    omega
  · have gap := between c mem' b mem
    rw [Block.stop] at gap
    omega

theorem Linked.split (linked : Linked mem a (pre ++ post) e) : (∃ e', Linked mem a pre e') ∧ Linked mem (last a pre) post e := by
  induction pre generalizing a with
  | nil => exact ⟨⟨_,rfl⟩,linked⟩
  | cons b pre ih =>
    obtain ⟨⟨e',first⟩,second⟩ := ih linked.2.2
    exact ⟨⟨e',linked.1,linked.2.1,first⟩,second⟩

theorem Linked.join {e' : Nat} (first : Linked mem a pre e') (second : Linked mem (last a pre) post e) : Linked mem a (pre ++ post) e := by
  induction pre generalizing a with
  | nil => exact second
  | cons b pre ih => exact ⟨first.1,first.2.1,ih first.2.2 second⟩

theorem slot_below (linked : Linked mem a bs e) (ordered : bs.Pairwise fun b c => b.stop < c.addr) (above : ∀ b ∈ bs, a < b.addr)
    (below : ∀ b ∈ bs, b.addr < bp) : slot mem bp (turns + bs.length) a = slot mem bp turns (last a bs) := by
  induction bs generalizing a with
  | nil => rfl
  | cons b bs ih =>
    have next := linked.1
    have up := above b (by simp)
    have down := below b (by simp)
    rw [length_cons,← Nat.add_assoc,slot,next,if_neg (by omega),if_neg (by omega)]
    rw [pairwise_cons] at ordered
    refine ih linked.2.2 ordered.2 (fun c mem => ?_) fun c mem => below c (by simp [mem])
    have gap := ordered.1 c mem
    rw [Block.stop] at gap
    omega

theorem slot_above (linked : Linked mem a bs base) (ordered : bs.Pairwise fun b c => b.stop < c.addr) (above : ∀ b ∈ bs, a < b.addr)
    (high : bp < a) (low : base < bp) : slot mem bp (turns + 1 + bs.length) a = slot mem bp turns base := by
  induction bs generalizing a with
  | nil =>
    have next : (mem a).ptr = base := linked
    rw [length_nil,Nat.add_zero,slot,next,if_neg (by omega),if_neg (by omega)]
  | cons b bs ih =>
    have next := linked.1
    have up := above b (by simp)
    rw [length_cons,← Nat.add_assoc,slot,next,if_neg (by omega),if_neg (by omega)]
    rw [pairwise_cons] at ordered
    refine ih linked.2.2 ordered.2 (fun c mem => ?_) (by omega)
    have gap := ordered.1 c mem
    rw [Block.stop] at gap
    omega

theorem slot_here (linked : Linked mem a post base) (low : a < bp) (high : ∀ b ∈ post, bp < b.addr) (above : base ≤ a) :
    slot mem bp (turns + 1) a = some a := by
  cases post with
  | nil =>
    have next : (mem a).ptr = base := linked
    rw [slot,next,if_neg (by omega),if_pos (by omega)]
  | cons b post =>
    have next := linked.1
    have up := high b (by simp)
    rw [slot,next,if_pos (by omega)]

theorem last_ge (ordered : Ordered base bs) : base ≤ last base bs := by
  obtain ⟨same,-⟩ | ⟨c,mem,same⟩ := last_mem base bs
  · omega
  · have := ordered.above c mem
    omega

theorem last_below (low : a < bp) (below : ∀ b ∈ bs, b.addr < bp) : last a bs < bp := by
  obtain ⟨same,-⟩ | ⟨c,mem,same⟩ := last_mem a bs
  · omega
  · have := below c mem
    omega

theorem slot_finds {h : Heap} (list : FreeList base h (pre ++ post)) (low : base < bp) (below : ∀ b ∈ pre, b.addr < bp)
    (beyond : ∀ b ∈ post, bp < b.addr) (enough : (pre ++ post).length + 2 ≤ turns) : slot h.mem bp turns h.freep = some (last base pre) := by
  obtain ⟨first,second,between⟩ := list.ordered.append
  obtain ⟨⟨_,toPre⟩,fromPre⟩ := list.linked.split
  have stops (more : Nat) : slot h.mem bp (more + 1) (last base pre) = some (last base pre) :=
    slot_here fromPre (last_below low below) beyond (last_ge first)
  obtain ⟨l1,l2,split,isLast⟩ := list.current
  rw [isLast]
  rw [length_append] at enough
  obtain ⟨m,rfl,rfl⟩ | ⟨m,rfl,rfl⟩ := append_eq_append_iff.mp split
  · -- the loop starts at the node or after it
    obtain ⟨same,none⟩ | ⟨c,isIn,same⟩ := last_mem (last base pre) m
    · obtain ⟨k,rfl⟩ : ∃ k, turns = k + 1 := ⟨turns - 1,by omega⟩
      rw [last_append,same]
      exact stops k
    · rw [length_append] at enough
      obtain ⟨k,rfl⟩ : ∃ k, turns = k + 1 + pre.length + 1 + l2.length := ⟨turns - pre.length - l2.length - 2,by omega⟩
      obtain ⟨-,ordered2,-⟩ := second.append
      have high : bp < last base (pre ++ m) := by
        rw [last_append,same]
        exact beyond c (by simp [isIn])
      have onward : Linked h.mem (last base (pre ++ m)) l2 base := by
        rw [last_append]
        exact fromPre.split.2
      have up : ∀ b ∈ l2, last base (pre ++ m) < b.addr := by
        rw [← append_assoc] at list
        exact list.ordered.last_lt
      rw [slot_above onward ordered2.gaps up high low,slot_below toPre first.gaps (fun b mem => by have := first.above b mem; omega) below]
      exact stops k
  · -- it starts before the node
    obtain ⟨-,ordered2,-⟩ := first.append
    rw [length_append] at enough
    obtain ⟨k,rfl⟩ : ∃ k, turns = k + 1 + m.length := ⟨turns - m.length - 1,by omega⟩
    have onward := toPre.split.2
    rw [slot_below onward ordered2.gaps first.last_lt fun b mem => below b (by simp [mem]),← last_append]
    exact stops k

/-- A block and the blocks after it, joined with the first of them if they touch. -/
def joined (b : Block) : List Block → Block × List Block
  | [] => (b,[])
  | c :: post => if b.stop = c.addr then (⟨b.addr,b.size + c.size⟩,post) else (b,c :: post)

/-- The blocks before a block and the block, joined with the last of them if they touch. -/
def glued (pre : List Block) (b : Block) : List Block :=
  match pre.getLast? with
  | none => [b]
  | some a => if a.stop = b.addr then pre.dropLast ++ [⟨a.addr,a.size + b.size⟩] else pre ++ [b]

def placed (pre : List Block) (b : Block) (post : List Block) : List Block := glued pre (joined b post).1 ++ (joined b post).2

def firstOf (base : Nat) : List Block → Nat
  | [] => base
  | c :: _ => c.addr

theorem Linked.first (linked : Linked mem a post e) : (mem a).ptr = firstOf e post := by
  cases post with
  | nil => exact linked
  | cons c post => exact linked.1

theorem joined_addr : (joined b post).1.addr = b.addr := by
  cases post with
  | nil => rfl
  | cons c post =>
    rw [joined]
    split <;> rfl

theorem joined_ordered (some : 0 < b.size) (high : base + 8 ≤ b.addr) (ordered : Ordered base post) (after : ∀ c ∈ post, b.stop ≤ c.addr) :
    Ordered base ((joined b post).1 :: (joined b post).2) := by
  cases post with
  | nil => exact ordered_cons.mpr ⟨some,high,by simp [joined],ordered⟩
  | cons c post =>
    obtain ⟨positive,above,gaps,rest⟩ := ordered_cons.mp ordered
    rw [joined]
    by_cases touch : b.stop = c.addr
    · rw [if_pos touch]
      refine ordered_cons.mpr ⟨?_,high,fun d mem => ?_,rest⟩
      · exact Nat.lt_of_lt_of_le some (Nat.le_add_right _ _)
      · have gap := gaps d mem
        simp only [Block.stop] at touch gap ⊢
        omega
    · rw [if_neg touch]
      have before := after c (by simp)
      refine ordered_cons.mpr ⟨some,high,forall_mem_cons.mpr ⟨Nat.lt_of_le_of_ne before touch,fun d mem => ?_⟩,ordered⟩
      have gap := gaps d mem
      simp only [Block.stop] at before gap ⊢
      omega

theorem joinNext_linked (linked : Linked mem a post base) (size : (mem b.addr).size = b.size) (other : ∀ c ∈ post, b.addr ≠ c.addr)
    (low : base < b.addr) :
    Linked (joinNext mem b.addr (mem a).ptr) b.addr (joined b post).2 base ∧
      (joinNext mem b.addr (mem a).ptr b.addr).size = (joined b post).1.size := by
  rw [linked.first,joinNext,size]
  cases post with
  | nil =>
    rw [if_neg (by simp only [firstOf]; omega)]
    simp [joined,Linked,firstOf,size]
  | cons c post =>
    obtain ⟨-,sizeC,rest⟩ := linked
    have apart : ∀ d ∈ post, d.addr ≠ b.addr := fun d mem same => other d (by simp [mem]) same.symm
    by_cases touch : b.stop = c.addr
    · rw [show joined b (c :: post) = (⟨b.addr,b.size + c.size⟩,post) from if_pos touch,firstOf,if_pos (show b.addr + 8 * b.size = c.addr from touch)]
      refine ⟨rest.congr (by simp) fun d mem => ?_,by simp [sizeC]⟩
      rw [update_of_ne (apart d mem)]
    · rw [show joined b (c :: post) = (b,c :: post) from if_neg touch,firstOf,if_neg (show ¬b.addr + 8 * b.size = c.addr from touch)]
      have otherC : c.addr ≠ b.addr := (other c (by simp)).symm
      refine ⟨⟨by simp,by rw [update_of_ne otherC]; exact sizeC,rest.congr ?_ fun d mem => ?_⟩,by simp [size]⟩
      · rw [update_of_ne otherC]
      · rw [update_of_ne (apart d mem)]

theorem joinNext_other {next x : Nat} (other : x ≠ bp) : joinNext mem bp next x = mem x := by
  rw [joinNext]
  split <;> rw [update_of_ne other]

theorem joinPrev_other {p x : Nat} (other : x ≠ p) : joinPrev mem p bp x = mem x := by
  rw [joinPrev]
  split <;> rw [update_of_ne other]

theorem glued_append (pre : List Block) (a b : Block) :
    glued (pre ++ [a]) b = if a.stop = b.addr then pre ++ [⟨a.addr,a.size + b.size⟩] else pre ++ [a] ++ [b] := by
  simp [glued]

theorem glued_last (base : Nat) (pre : List Block) (b : Block) : ∃ l1 l2, glued pre b = l1 ++ l2 ∧ last base l1 = last base pre := by
  rcases eq_nil_or_concat pre with rfl | ⟨pre',a,rfl⟩
  · exact ⟨[],[b],rfl,rfl⟩
  · rw [concat_eq_append,glued_append]
    by_cases touch : a.stop = b.addr
    · rw [if_pos touch]
      exact ⟨pre' ++ [⟨a.addr,a.size + b.size⟩],[],by simp,by simp [last]⟩
    · rw [if_neg touch]
      exact ⟨pre' ++ [a],[b],rfl,rfl⟩

theorem glued_ordered (ordered : Ordered base pre) (rest : Ordered base (b :: post)) (before : ∀ c ∈ pre, c.stop ≤ b.addr) :
    Ordered base (glued pre b ++ post) := by
  rcases eq_nil_or_concat pre with rfl | ⟨pre',a,rfl⟩
  · exact rest
  · rw [concat_eq_append] at ordered before ⊢
    obtain ⟨some,high,gaps,ordered'⟩ := ordered_cons.mp rest
    obtain ⟨first,second,between⟩ := ordered.append
    obtain ⟨someA,highA,-,-⟩ := ordered_cons.mp second
    have near := before a (by simp)
    rw [glued_append]
    by_cases touch : a.stop = b.addr
    · rw [if_pos touch,append_assoc]
      refine ordered_append first (ordered_cons.mpr ⟨by simp; omega,highA,fun c mem => ?_,ordered'⟩) fun c mem d mem' => ?_
      · have gap := gaps c mem
        simp only [Block.stop] at touch gap ⊢
        omega
      · obtain rfl | later := mem_cons.mp mem'
        · exact between c mem a (by simp)
        · have gapA := between c mem a (by simp)
          have gap := gaps d later
          simp only [Block.stop] at gap gapA near ⊢
          omega
    · rw [if_neg touch,append_assoc,singleton_append]
      refine ordered_append ordered rest fun c mem d mem' => ?_
      obtain rfl | later := mem_cons.mp mem'
      · rcases mem_append.mp mem with old | isA
        · have gapA := between c old a (by simp)
          simp only [Block.stop] at gapA near ⊢
          omega
        · rw [mem_singleton.mp isA]
          exact Nat.lt_of_le_of_ne near touch
      · have close := before c mem
        have gap := gaps d later
        simp only [Block.stop] at gap close ⊢
        omega

theorem joinPrev_linked (toPre : Linked mem base pre e) (ordered : Ordered base pre) (empty : (mem base).size = 0)
    (rest : Linked mem b.addr post base) (size : (mem b.addr).size = b.size) (high : base + 8 ≤ b.addr) (before : ∀ c ∈ pre, c.stop ≤ b.addr)
    (after : ∀ c ∈ post, b.addr < c.addr) :
    Linked (joinPrev mem (last base pre) b.addr) base (glued pre b ++ post) base ∧ (joinPrev mem (last base pre) b.addr base).size = 0 := by
  have below : ∀ c ∈ pre, c.addr < b.addr := fun c mem => by
    have stop := before c mem
    have some := ordered.positive c mem
    rw [Block.stop] at stop
    omega
  have lower : last base pre < b.addr := last_below (by omega) below
  have restCongr {mem' : Nat → Header} {a' : Nat} (first : (mem' a').ptr = (mem b.addr).ptr) (same : ∀ x ≠ last base pre, mem' x = mem x) :
      Linked mem' a' post base :=
    rest.congr first fun c isIn => same _ (by have := after c isIn; omega)
  rw [joinPrev]
  rcases eq_nil_or_concat pre with rfl | ⟨pre',a,rfl⟩
  · rw [last,empty,if_neg (by omega)]
    have other : b.addr ≠ base := by omega
    refine ⟨⟨by simp,by rw [update_of_ne other]; exact size,restCongr ?_ fun x ne => update_of_ne ne _ _⟩,by simp [empty]⟩
    rw [update_of_ne other]
  · rw [concat_eq_append] at toPre ordered before lower restCongr ⊢
    obtain ⟨toA,sizeA,-⟩ := linked_append.mp toPre
    have isLast : last base (pre' ++ [a]) = a.addr := by rw [last_append]; rfl
    have nodup := ordered.nodup
    have notBase : base ≠ a.addr := by
      have := ordered.above a (by simp)
      omega
    have notB : b.addr ≠ a.addr := by omega
    rw [isLast] at restCongr ⊢
    rw [sizeA,glued_append]
    by_cases touch : a.stop = b.addr
    · rw [if_pos touch,if_pos (show a.addr + 8 * a.size = b.addr from touch),append_assoc]
      refine ⟨linked_append.mpr ⟨toA.congr ?_ fun c isIn => ?_,by simp [size],restCongr (by simp) fun x ne => update_of_ne ne _ _⟩,?_⟩
      · rw [update_of_ne notBase]
      · refine update_of_ne (fun same => ?_) _ _
        rw [map_append,nodup_cons,nodup_append] at nodup
        exact nodup.2.2.2 c.addr (mem_map_of_mem isIn) a.addr (by simp) same
      · rw [update_of_ne notBase]
        exact empty
    · rw [if_neg touch,if_neg (show ¬a.addr + 8 * a.size = b.addr from touch),append_assoc]
      refine ⟨linked_append.mpr ⟨toPre.relink isLast.symm nodup _,?_,restCongr ?_ fun x ne => update_of_ne ne _ _⟩,?_⟩
      · rw [update_of_ne notB]
        exact size
      · rw [update_of_ne notB]
      · rw [update_of_ne notBase]
        exact empty

/-- `free` makes a block one of the free blocks, and changes only its header and that of the node before it. -/
theorem free_spec {h : Heap} (list : FreeList base h (pre ++ post)) (size : (h.mem b.addr).size = b.size) (some : 0 < b.size)
    (high : base + 8 ≤ b.addr) (before : ∀ c ∈ pre, c.stop ≤ b.addr) (after : ∀ c ∈ post, b.stop ≤ c.addr)
    (enough : (pre ++ post).length + 2 ≤ turns) :
    ∃ h', free turns h (b.addr + 8) = .some h' ∧ FreeList base h' (placed pre b post) ∧ h'.top = h.top ∧
      ∀ x, x ≠ b.addr → x ≠ last base pre → h'.mem x = h.mem x := by
  obtain ⟨first,second,between⟩ := list.ordered.append
  have below : ∀ c ∈ pre, c.addr < b.addr := fun c mem => by
    have stop := before c mem
    have some := first.positive c mem
    rw [Block.stop] at stop
    omega
  have beyond : ∀ c ∈ post, b.addr < c.addr := fun c mem => by
    have stop := after c mem
    rw [Block.stop] at stop
    omega
  have found := slot_finds list (by omega) below beyond enough
  obtain ⟨⟨_,toPre⟩,fromPre⟩ := list.linked.split
  have isLower : last base pre < b.addr := last_below (by omega) below
  obtain ⟨linked1,size1⟩ := joinNext_linked fromPre size (fun c mem => by have := beyond c mem; omega) (by omega)
  have same1 {x : Nat} (ne : x ≠ b.addr) : joinNext h.mem b.addr (h.mem (last base pre)).ptr x = h.mem x := joinNext_other ne
  have ordered1 := joined_ordered some high second after
  refine ⟨{ h with mem := joinPrev (joinNext h.mem b.addr (h.mem (last base pre)).ptr) (last base pre) b.addr, freep := last base pre },
    by simp [free,found],?_,rfl,fun x ne ne' => (joinPrev_other ne').trans (same1 ne)⟩
  generalize joinNext h.mem b.addr (h.mem (last base pre)).ptr = mem1 at linked1 size1 same1 ⊢
  have toPre1 : Linked mem1 base pre _ := toPre.congr (by rw [same1 (by omega)]) fun c mem => same1 (by have := below c mem; omega)
  have empty1 : (mem1 base).size = 0 := by
    rw [same1 (by omega)]
    exact list.empty
  obtain ⟨-,-,gaps,-⟩ := ordered_cons.mp ordered1
  have isAddr : (joined b post).1.addr = b.addr := joined_addr
  rw [← isAddr] at linked1 size1 high before
  obtain ⟨linked2,empty2⟩ := joinPrev_linked toPre1 first empty1 linked1 size1 high before fun c mem => by
    have gap := gaps c mem
    rw [Block.stop] at gap
    omega
  rw [isAddr] at linked2 empty2
  obtain ⟨l1,l2,split,isLast⟩ := glued_last base pre (joined b post).1
  exact ⟨linked2,empty2,glued_ordered first ordered1 before,l1,l2 ++ (joined b post).2,by rw [placed,split,append_assoc],isLast.symm⟩

end Osce.Umalloc
