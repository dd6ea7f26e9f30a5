import Osce.Umalloc.Search

/-!
The heap over whole runs: any order of `malloc`, `free` of a live block, and stores of the program into its live blocks.
-/
namespace Osce.Umalloc
open List

variable {base n turns : Nat} {b c : Block} {blocks pre post : List Block} {h h' : Heap} {sbrk : Sbrk}

def Block.Apart (b c : Block) : Prop := b.stop ≤ c.addr ∨ c.stop ≤ b.addr

theorem apart_symm (apart : b.Apart c) : c.Apart b := Or.symm apart

theorem apart_ne (apart : b.Apart c) (some : 0 < b.size) (some' : 0 < c.size) : b.addr ≠ c.addr := by
  rw [Block.Apart,Block.stop,Block.stop] at apart
  omega

theorem apart_within {l : Block} (apart : l.Apart b) (low : b.addr ≤ c.addr) (high : c.stop ≤ b.stop) : l.Apart c :=
  apart.imp (fun before => before.trans low) fun after => high.trans after

/-- What holds of all free blocks and of one that is freed holds of the free blocks then, if joining keeps it. -/
theorem placed_all {P : Block → Prop} (joins : ∀ a b : Block, P a → P b → a.stop = b.addr → P ⟨a.addr,a.size + b.size⟩) (ofPre : ∀ c ∈ pre, P c)
    (ofBlock : P b) (ofPost : ∀ c ∈ post, P c) : ∀ c ∈ placed pre b post, P c := by
  have next : P (joined b post).1 ∧ ∀ c ∈ (joined b post).2, P c := by
    cases post with
    | nil => exact ⟨ofBlock,ofPost⟩
    | cons d post =>
      rw [forall_mem_cons] at ofPost
      rw [joined]
      split
      next touch => exact ⟨joins b d ofBlock ofPost.1 touch,ofPost.2⟩
      next => exact ⟨ofBlock,forall_mem_cons.mpr ofPost⟩
  rw [placed,forall_mem_append]
  refine ⟨?_,next.2⟩
  rcases eq_nil_or_concat pre with rfl | ⟨pre',a,rfl⟩
  · exact forall_mem_singleton.mpr next.1
  · rw [concat_eq_append] at ofPre ⊢
    rw [glued_append]
    split
    next touch =>
      refine forall_mem_append.mpr ⟨fun c mem => ofPre c (by simp [mem]),forall_mem_singleton.mpr ?_⟩
      exact joins a _ (ofPre a (by simp)) next.1 touch
    next => exact forall_mem_append.mpr ⟨ofPre,forall_mem_singleton.mpr next.1⟩

theorem placed_apart {l : Block} (some : 0 < l.size) (ofPre : ∀ c ∈ pre, l.Apart c) (ofBlock : l.Apart b) (ofPost : ∀ c ∈ post, l.Apart c) :
    ∀ c ∈ placed pre b post, l.Apart c := by
  refine placed_all (fun a b first second touch => ?_) ofPre ofBlock ofPost
  simp only [Block.Apart,Block.stop] at first second touch ⊢
  omega

theorem placed_within {top : Nat} (ofPre : ∀ c ∈ pre, c.stop ≤ top) (ofBlock : b.stop ≤ top) (ofPost : ∀ c ∈ post, c.stop ≤ top) :
    ∀ c ∈ placed pre b post, c.stop ≤ top := by
  refine placed_all (P := fun c => c.stop ≤ top) (fun a b first second touch => ?_) ofPre ofBlock ofPost
  simp only [Block.stop] at first second touch ⊢
  omega

/-- A block that overlaps none of them belongs between two of them. -/
theorem Ordered.around (ordered : Ordered base blocks) (apart : ∀ c ∈ blocks, b.Apart c) :
    ∃ pre post, blocks = pre ++ post ∧ (∀ c ∈ pre, c.stop ≤ b.addr) ∧ ∀ c ∈ post, b.stop ≤ c.addr := by
  induction blocks with
  | nil => exact ⟨[],[],rfl,by simp,by simp⟩
  | cons c blocks ih =>
    obtain ⟨-,-,gaps,rest⟩ := ordered_cons.mp ordered
    rcases apart c (by simp) with before | after
    · refine ⟨[],c :: blocks,rfl,by simp,forall_mem_cons.mpr ⟨before,fun d mem => ?_⟩⟩
      have gap := gaps d mem
      rw [Block.stop] at gap
      omega
    · obtain ⟨pre,post,rfl,below,beyond⟩ := ih rest fun d mem => apart d (by simp [mem])
      exact ⟨c :: pre,post,rfl,forall_mem_cons.mpr ⟨after,below⟩,beyond⟩

/-- The free blocks and the live blocks, with the bytes that were asked for. Before the first `malloc` there are none. -/
structure Valid (base : Nat) (h : Heap) (live : List (Block × Nat)) (blocks : List Block) : Prop where
  list : h.freep = 0 ∧ blocks = [] ∧ live = [] ∨ FreeList base h blocks
  within : ∀ b ∈ blocks, b.stop ≤ h.top
  room : base + 8 ≤ h.top
  sizes : ∀ l ∈ live, (h.mem l.1.addr).size = l.1.size
  payload : ∀ l ∈ live, l.2 + 8 ≤ 8 * l.1.size
  inside : ∀ l ∈ live, base + 8 ≤ l.1.addr ∧ l.1.stop ≤ h.top
  apartFree : ∀ l ∈ live, ∀ b ∈ blocks, l.1.Apart b
  apartLive : live.Pairwise fun l k => l.1.Apart k.1

variable {live : List (Block × Nat)}

theorem Valid.positive (valid : Valid base h live blocks) : ∀ l ∈ live, 0 < l.1.size := by
  intro l mem
  have := valid.payload l mem
  omega

theorem Valid.list_of_live (valid : Valid base h live blocks) {l : Block × Nat} (mem : l ∈ live) : FreeList base h blocks := by
  refine valid.list.resolve_left ?_
  rintro ⟨-,-,none⟩
  rw [none] at mem
  cases mem

theorem Valid.not_node (valid : Valid base h live (pre ++ post)) (list : FreeList base h (pre ++ post)) {l : Block × Nat} (mem : l ∈ live) :
    l.1.addr ≠ last base pre := by
  obtain ⟨same,-⟩ | ⟨c,isIn,same⟩ := last_mem base pre
  · have := (valid.inside l mem).1
    omega
  · rw [same]
    exact apart_ne (valid.apartFree l mem c (by simp [isIn])) (valid.positive l mem) (list.ordered.positive c (by simp [isIn]))

theorem Valid.init (valid : Valid base h live blocks) (positive : 0 < base) :
    FreeList base (init base h) blocks ∧ Valid base (init base h) live blocks ∧ ∀ x, x ≠ base → (init base h).mem x = h.mem x := by
  obtain ⟨none,rfl,rfl⟩ | list := valid.list
  · have isInit : Umalloc.init base h = { h with mem := Function.update h.mem base ⟨base,0⟩, freep := base } := if_pos none
    rw [isInit]
    have list : FreeList base { h with mem := Function.update h.mem base ⟨base,0⟩, freep := base } [] :=
      ⟨by simp [Linked],by simp,⟨.nil,by simp,by simp⟩,[],[],rfl,rfl⟩
    exact ⟨list,⟨.inr list,by simp,valid.room,by simp,by simp,by simp,by simp,.nil⟩,fun x ne => Function.update_of_ne ne _ _⟩
  · have some : h.freep ≠ 0 := by
      obtain ⟨pre,post,rfl,isLast⟩ := list.current
      have := last_ge list.ordered.append.1
      omega
    rw [Umalloc.init,if_neg some]
    exact ⟨list,valid,fun x _ => rfl⟩

theorem Valid.take (valid : Valid base h live (pre ++ b :: post)) (list : FreeList base h (pre ++ b :: post)) {bytes : Nat} (large : n ≤ b.size)
    (enough : bytes + 8 ≤ 8 * n) :
    ∃ h', take h n (last base pre) b.addr = (h',(taken b n).addr + 8) ∧ (h'.mem (taken b n).addr).size = n ∧
      Valid base h' ((taken b n,bytes) :: live) (pre ++ (rest b n ++ post)) := by
  obtain ⟨h',run,list',size,top,same⟩ := take_spec list large (by omega)
  obtain ⟨first,second,between⟩ := list.ordered.append
  obtain ⟨someB,highB,gaps,-⟩ := ordered_cons.mp second
  have stop : (taken b n).stop = b.stop := taken_stop large
  have low : b.addr ≤ (taken b n).addr := Nat.le_add_right _ _
  have below : (taken b n).addr < b.stop := by simp only [taken,Block.stop]; omega
  have topB := valid.within b (by simp)
  have fromB : ∀ l ∈ live, l.1.Apart b := fun l mem => valid.apartFree l mem b (by simp)
  have header : ∀ l ∈ live, h'.mem l.1.addr = h.mem l.1.addr := by
    intro l mem
    have apart := fromB l mem
    have some := valid.positive l mem
    refine same _ (valid.not_node list mem) (apart_ne apart some someB) fun isT => ?_
    rw [Block.Apart,Block.stop] at apart
    omega
  refine ⟨h',run,size,.inr list',?_,?_,?_,?_,?_,?_,?_⟩
  · rw [top]
    refine forall_mem_append.mpr ⟨fun c mem => valid.within c (by simp [mem]),forall_mem_append.mpr ⟨fun c mem => ?_,fun c mem =>
      valid.within c (by simp [mem])⟩⟩
    rw [(rest_spec c mem).2]
    omega
  · rw [top]
    exact valid.room
  · exact forall_mem_cons.mpr ⟨size,fun l mem => by rw [header l mem]; exact valid.sizes l mem⟩
  · exact forall_mem_cons.mpr ⟨enough,valid.payload⟩
  · rw [top]
    exact forall_mem_cons.mpr ⟨⟨by show _ ≤ (taken b n).addr; omega,by show (taken b n).stop ≤ _; omega⟩,valid.inside⟩
  · refine forall_mem_cons.mpr ⟨fun c mem => ?_,fun l mem c mem' => ?_⟩
    · rcases mem_append.mp mem with inPre | mem
      · have gap := between c inPre b (by simp)
        exact .inr (by show _ ≤ (taken b n).addr; omega)
      · rcases mem_append.mp mem with inRest | inPost
        · exact .inr (rest_spec c inRest).2.le
        · exact .inl (by rw [stop]; exact (gaps c inPost).le)
    · rcases mem_append.mp mem' with inPre | mem'
      · exact valid.apartFree l mem c (by simp [inPre])
      · rcases mem_append.mp mem' with inRest | inPost
        · obtain ⟨isB,end'⟩ := rest_spec c inRest
          exact apart_within (fromB l mem) isB.ge (by omega)
        · exact valid.apartFree l mem c (by simp [inPost])
  · exact pairwise_cons.mpr ⟨fun l mem => apart_symm (apart_within (fromB l mem) low stop.le),valid.apartLive⟩

theorem Valid.morecore {hp : Nat} (valid : Valid base h live blocks) (list : FreeList base h blocks) (fits : n * 8 < 2 ^ 32)
    (grown : sbrk h.top (max n 4096 * 8 % 2 ^ 32) = some hp) (fresh : h.top ≤ hp) (enough : blocks.length + 2 ≤ turns) :
    ∃ h', morecore sbrk turns h n = some (some h') ∧ FreeList base h' (glued blocks (core hp n)) ∧ Valid base h' live (glued blocks (core hp n)) := by
  obtain ⟨h',run,list',top,same⟩ := morecore_spec list valid.within valid.room fits grown fresh enough
  have grew : h.top ≤ h'.top := by
    rw [top,Block.stop]
    exact fresh.trans (Nat.le_add_right _ _)
  have isPlaced : glued blocks (core hp n) = placed blocks (core hp n) [] := by simp [placed,joined]
  refine ⟨h',run,list',.inr list',?_,valid.room.trans grew,fun l mem => ?_,valid.payload,fun l mem => ?_,fun l mem => ?_,valid.apartLive⟩
  · rw [isPlaced,top]
    refine placed_within (fun c mem => ?_) (Nat.le_refl _) (by simp)
    exact (valid.within c mem).trans (fresh.trans (Nat.le_add_right _ _))
  · have inside := (valid.inside l mem).2
    have some := valid.positive l mem
    rw [Block.stop] at inside
    have ofEnd : l.1.addr ≠ last base blocks := by
      rw [← append_nil blocks] at valid list
      exact valid.not_node list mem
    rw [same _ (by omega) ofEnd]
    exact valid.sizes l mem
  · exact ⟨(valid.inside l mem).1,(valid.inside l mem).2.trans grew⟩
  · rw [isPlaced]
    exact placed_apart (valid.positive l mem) (valid.apartFree l mem) (.inl ((valid.inside l mem).2.trans fresh)) (by simp)

theorem Valid.free {l : Block × Nat} (valid : Valid base h live blocks) (mem : l ∈ live) (turns : Nat) (enough : blocks.length + 2 ≤ turns) :
    ∃ h' blocks', free turns h (l.1.addr + 8) = some h' ∧ Valid base h' (live.erase l) blocks' := by
  have list := valid.list_of_live mem
  obtain ⟨pre,post,rfl,below,beyond⟩ := list.ordered.around (valid.apartFree l mem)
  obtain ⟨h',run,list',top,same⟩ := free_spec list (valid.sizes l mem) (valid.positive l mem) (valid.inside l mem).1 below beyond enough
  have old : ∀ k ∈ live.erase l, k ∈ live := fun k => mem_of_mem_erase
  have nodup : live.Nodup := by
    refine valid.apartLive.imp_of_mem fun {k j} isIn _ apart same => ?_
    exact apart_ne apart (valid.positive k isIn) (same ▸ valid.positive k isIn) (by rw [same])
  have others : ∀ k ∈ live.erase l, k.1.Apart l.1 := by
    intro k isIn
    obtain ⟨ne,isOld⟩ := nodup.mem_erase_iff.mp isIn
    have symm : Std.Symm fun (l k : Block × Nat) => l.1.Apart k.1 := ⟨fun _ _ => apart_symm⟩
    exact valid.apartLive.forall isOld mem ne
  refine ⟨h',placed pre l.1 post,run,.inr list',?_,?_,?_,?_,?_,?_,?_⟩
  · rw [top]
    exact placed_within (fun c mem => valid.within c (by simp [mem])) (valid.inside l mem).2 fun c mem => valid.within c (by simp [mem])
  · rw [top]
    exact valid.room
  · intro k isIn
    have isOld := old k isIn
    rw [same _ (apart_ne (others k isIn) (valid.positive k isOld) (valid.positive l mem)) (valid.not_node list isOld)]
    exact valid.sizes k isOld
  · exact fun k isIn => valid.payload k (old k isIn)
  · rw [top]
    exact fun k isIn => valid.inside k (old k isIn)
  · intro k isIn
    have isOld := old k isIn
    exact placed_apart (valid.positive k isOld) (fun c mem => valid.apartFree k isOld c (by simp [mem])) (others k isIn) fun c mem =>
      valid.apartFree k isOld c (by simp [mem])
  · exact valid.apartLive.sublist erase_sublist

theorem nunits_spec {bytes : Nat} (small : bytes < 2 ^ 32 - 15) : bytes + 8 ≤ 8 * nunits bytes ∧ nunits bytes * 8 < 2 ^ 32 := by
  rw [nunits,Nat.mod_eq_of_lt (by omega)]
  omega

theorem glued_length (pre : List Block) (b : Block) : (glued pre b).length ≤ pre.length + 1 := by
  rcases eq_nil_or_concat pre with rfl | ⟨pre',a,rfl⟩
  · simp [glued]
  · rw [concat_eq_append,glued_append]
    split <;> simp

/-- What `malloc` returns: a new live block, or null, and then all blocks are as they were. -/
def Returns (base : Nat) (h : Heap) (live : List (Block × Nat)) (blocks : List Block) (bytes : Nat) (result : Heap × Nat) : Prop :=
  result.2 = 0 ∧ Valid base result.1 live blocks ∧ (∀ x, x ≠ base → result.1.mem x = h.mem x) ∨
    ∃ t blocks', result.2 = t.addr + 8 ∧ (result.1.mem t.addr).size = t.size ∧ Valid base result.1 ((t,bytes) :: live) blocks'

theorem Valid.found {bytes : Nat} (sbrk : Sbrk) (valid : Valid base h live blocks) (list : FreeList base h blocks) (enough : bytes + 8 ≤ 8 * n)
    (large : ∃ b ∈ blocks, n ≤ b.size) (room : blocks.length + 2 ≤ turns) :
    ∃ t h' blocks', search sbrk n turns h h.freep (h.mem h.freep).ptr = some (h',t.addr + 8) ∧ (h'.mem t.addr).size = t.size ∧
      Valid base h' ((t,bytes) :: live) blocks' := by
  obtain ⟨pre,b,post,rfl,large,run⟩ := search_finds sbrk list (by omega) large room
  obtain ⟨h',took,size,valid'⟩ := valid.take list large enough
  exact ⟨taken b n,h',_,by rw [run,took],size,valid'⟩

theorem Valid.malloc {bytes : Nat} (valid : Valid base h live blocks) (positive : 0 < base) (small : bytes < 2 ^ 32 - 15)
    (fresh : ∀ top k a, sbrk top k = some a → top ≤ a) (turns : Nat) (room : 2 * blocks.length + 4 ≤ turns) :
    ∃ result, malloc base sbrk turns h bytes = some result ∧ Returns base h live blocks bytes result := by
  obtain ⟨list,valid',same⟩ := valid.init positive
  obtain ⟨enough,fits⟩ := nunits_spec small
  rw [Umalloc.malloc]
  by_cases large : ∃ b ∈ blocks, nunits bytes ≤ b.size
  · obtain ⟨t,h',blocks',run,size,valid2⟩ := valid'.found sbrk list enough large (by omega : _ ≤ turns)
    exact ⟨(h',t.addr + 8),run,.inr ⟨t,blocks',rfl,size,valid2⟩⟩
  · have tooSmall : ∀ b ∈ blocks, b.size < nunits bytes := fun b mem => Nat.lt_of_not_le fun isLarge => large ⟨b,mem,isLarge⟩
    obtain ⟨k,rfl⟩ : ∃ k, turns = k + 1 + blocks.length := ⟨turns - 1 - blocks.length,by omega⟩
    simp only [search_none list (by omega) tooSmall]
    cases grown : sbrk (Umalloc.init base h).top (max (nunits bytes) 4096 * 8 % 2 ^ 32) with
    | none => exact ⟨(Umalloc.init base h,0),by rw [morecore_none grown]; rfl,.inl ⟨rfl,valid',same⟩⟩
    | some hp =>
      obtain ⟨h1,ran,list1,valid1⟩ := valid'.morecore list fits grown (fresh _ _ _ grown) (by omega : blocks.length + 2 ≤ k)
      obtain ⟨c,mem,big⟩ := glued_large blocks (core hp (nunits bytes))
      have shorter := glued_length blocks (core hp (nunits bytes))
      have wide : nunits bytes ≤ c.size := (Nat.le_max_left _ _).trans big
      obtain ⟨t,h',blocks',run,size,valid2⟩ := valid1.found sbrk list1 enough ⟨c,mem,wide⟩ (by omega : _ ≤ k)
      exact ⟨(h',t.addr + 8),by simp [ran,run],.inr ⟨t,blocks',rfl,size,valid2⟩⟩

structure Machine where
  heap : Heap
  live : List (Block × Nat)

/-- `sbrk` fails or returns memory above all that it has returned before. -/
def Fresh (sbrk : Sbrk) : Prop := ∀ top k a, sbrk top k = some a → top ≤ a

/-- A call of the program that returns, or a store into its live blocks. -/
inductive Step (base : Nat) (m : Machine) : Machine → Prop where
  | malloc {sbrk : Sbrk} {bytes turns p : Nat} {heap : Heap} (fresh : Fresh sbrk) (small : bytes < 2 ^ 30)
      (run : malloc base sbrk turns m.heap bytes = some (heap,p)) :
      Step base m ⟨heap,if p = 0 then m.live else (⟨p - 8,(heap.mem (p - 8)).size⟩,bytes) :: m.live⟩
  | free {l : Block × Nat} {turns : Nat} {heap : Heap} (live : l ∈ m.live) (run : free turns m.heap (l.1.addr + 8) = some heap) :
      Step base m ⟨heap,m.live.erase l⟩
  | store {mem : Nat → Header} (inside : ∀ x, (∀ l ∈ m.live, ¬(l.1.addr + 8 ≤ x ∧ x < l.1.stop)) → mem x = m.heap.mem x) :
      Step base m ⟨{ m.heap with mem },m.live⟩

structure Initial (base : Nat) (m : Machine) : Prop where
  freep : m.heap.freep = 0
  live : m.live = []
  positive : 0 < base
  room : base + 8 ≤ m.heap.top

theorem initial_valid {m : Machine} (initial : Initial base m) : Valid base m.heap m.live [] := by
  rw [initial.live]
  exact ⟨.inl ⟨initial.freep,rfl,rfl⟩,by simp,initial.room,by simp,by simp,by simp,by simp,.nil⟩

theorem malloc_more {bytes : Nat} {r : Heap × Nat} (run : malloc base sbrk turns h bytes = some r) (k : Nat) :
    malloc base sbrk (turns + k) h bytes = some r := search_more run k

theorem Valid.congr {mem : Nat → Header} (valid : Valid base h live blocks) (atNodes : ∀ x, x = base ∨ (∃ b ∈ blocks, x = b.addr) → mem x = h.mem x)
    (atLive : ∀ l ∈ live, mem l.1.addr = h.mem l.1.addr) : Valid base { h with mem } live blocks := by
  have sizes : ∀ l ∈ live, (mem l.1.addr).size = l.1.size := fun l isIn => by
    rw [atLive l isIn]
    exact valid.sizes l isIn
  exact ⟨valid.list.imp id fun list => list.congr atNodes rfl,valid.within,valid.room,sizes,valid.payload,valid.inside,valid.apartFree,valid.apartLive⟩

theorem Valid.headers {l : Block × Nat} {x : Nat} (valid : Valid base h live blocks) (isIn : l ∈ live)
    (header : (x = base ∨ ∃ b ∈ blocks, x = b.addr) ∨ ∃ k ∈ live, x = k.1.addr) : x + 8 ≤ l.1.addr + 8 ∨ l.1.stop ≤ x := by
  rcases header with (rfl | ⟨b,isB,rfl⟩) | ⟨k,isK,rfl⟩
  · have := (valid.inside l isIn).1
    omega
  · have apart := valid.apartFree l isIn b isB
    have some := (valid.list_of_live isIn).ordered.positive b isB
    simp only [Block.Apart,Block.stop] at apart ⊢
    omega
  · by_cases same : k = l
    · rw [same]
      omega
    · have symm : Std.Symm fun (l k : Block × Nat) => l.1.Apart k.1 := ⟨fun _ _ => apart_symm⟩
      have apart := valid.apartLive.forall isK isIn same
      have some := valid.positive k isK
      simp only [Block.Apart,Block.stop] at apart ⊢
      omega

theorem Valid.store {mem : Nat → Header} (valid : Valid base h live blocks)
    (inside : ∀ x, (∀ l ∈ live, ¬(l.1.addr + 8 ≤ x ∧ x < l.1.stop)) → mem x = h.mem x) : Valid base { h with mem } live blocks := by
  refine valid.congr (fun x node => inside x fun l isIn payload => ?_) fun k isK => inside _ fun l isIn payload => ?_
  · have := valid.headers isIn (.inl node)
    omega
  · have := valid.headers isIn (.inr ⟨k,isK,rfl⟩)
    omega

theorem Valid.step {m m' : Machine} (valid : Valid base m.heap m.live blocks) (positive : 0 < base) (step : Step base m m') :
    ∃ blocks', Valid base m'.heap m'.live blocks' := by
  cases step with
  | @malloc sbrk bytes turns p heap fresh small run =>
    obtain ⟨⟨heap',p'⟩,run',returns⟩ := valid.malloc positive (by omega : bytes < 2 ^ 32 - 15) fresh (turns + (2 * blocks.length + 4)) (by omega)
    rw [malloc_more run] at run'
    cases run'
    obtain ⟨none,valid',-⟩ | ⟨t,blocks',isT,size,valid'⟩ := returns
    · rw [if_pos none]
      exact ⟨blocks,valid'⟩
    · obtain rfl : p = t.addr + 8 := isT
      have isBlock : (⟨t.addr + 8 - 8,(heap.mem (t.addr + 8 - 8)).size⟩ : Block) = t := by
        rw [Nat.add_sub_cancel,size]
      rw [if_neg (by omega),isBlock]
      exact ⟨blocks',valid'⟩
  | @free l turns heap live run =>
    obtain ⟨heap',blocks',run',valid'⟩ := valid.free live (turns + (blocks.length + 2)) (by omega)
    rw [free_more run] at run'
    cases run'
    exact ⟨blocks',valid'⟩
  | store inside => exact ⟨blocks,valid.store inside⟩

def loaded : Machine := ⟨⟨fun _ => ⟨0,0⟩,0,4096⟩,[]⟩

def grows : Sbrk := fun top _ => some top

end Osce.Umalloc
