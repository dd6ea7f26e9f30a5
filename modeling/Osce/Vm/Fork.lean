import Osce.Vm.Machine

/-!
`fork` copies the memory of the parent. While `kalloc` finds a page, `copyuvm` returns a directory with the parent's pages,
their flags and their bytes, in frames of its own.
-/
namespace Osce.Vm
open Osce.Lib Prog

/-- `pte & PTE_W` -/
def isWritable (pte : Nat) : Bool := pte / 2 % 2 = 1

/-- User code stores a byte. A store that traps changes nothing: there is no page, or the page is the kernel's, or it
    may not be written. -/
def userStore (m : Mem) (pgdir va : Nat) (b : UInt8) : Mem :=
  let pte := m.pte pgdir (va / PGSIZE)
  if va < KERNBASE && isPresent pte && isUser pte && isWritable pte then
    m.setPage (PTE_ADDR pte) ((m.page (PTE_ADDR pte)).write (va % PGSIZE) [b])
  else m

inductive Side where
  | parent
  | child
  deriving DecidableEq

def Side.pgdir (p d : Nat) : Side → Nat
  | .parent => p
  | .child => d

structure Store where
  side : Side
  va : Nat
  b : UInt8

/-- The memory after some stores, in the order in which they were made. -/
def afterStores (p d : Nat) (m : Mem) (stores : List Store) : Mem := stores.foldl (fun m s => userStore m (s.side.pgdir p d) s.va s.b) m

/-- The contents of an address space: the flags and the byte at each address that is mapped. -/
abbrev Contents := Nat → Option (Nat × UInt8)

def Mem.contents (m : Mem) (d : Nat) : Contents := fun va =>
  if va < KERNBASE ∧ isPresent (m.pte d (va / PGSIZE)) = true then
    some (PTE_FLAGS (m.pte d (va / PGSIZE)),(m.page (PTE_ADDR (m.pte d (va / PGSIZE)))).get (va % PGSIZE))
  else none

def Contents.read (c : Contents) (va : Nat) : Option UInt8 := (c va).bind fun (flags,b) => if isUser flags then some b else none

def Contents.store (c : Contents) (va : Nat) (b : UInt8) : Contents :=
  match c va with
  | none => c
  | some (flags,_) => if isUser flags && isWritable flags then Function.update c va (some (flags,b)) else c

def Contents.stores (c : Contents) (side : Side) (stores : List Store) : Contents :=
  (stores.filter (·.side = side)).foldl (fun c s => c.store s.va s.b) c

variable {All R : Multiset Nat} {m m' : Mem} {d p q sz va : Nat} {b : UInt8}

theorem isUser_flags (pte : Nat) : isUser (PTE_FLAGS pte) = isUser pte := by
  simp only [isUser,PTE_FLAGS,PGSIZE]
  congr 2
  omega

theorem isWritable_flags (pte : Nat) : isWritable (PTE_FLAGS pte) = isWritable pte := by
  simp only [isWritable,PTE_FLAGS,PGSIZE]
  congr 2
  omega

theorem page_of_user (low : va < KERNBASE) : va / PGSIZE < USERPAGES := by
  simp only [USERPAGES,KERNBASE,PGSIZE] at *
  omega

theorem contents_mapped (low : va < KERNBASE) (present : isPresent (m.pte d (va / PGSIZE)) = true) : m.contents d va =
    some (PTE_FLAGS (m.pte d (va / PGSIZE)),(m.page (PTE_ADDR (m.pte d (va / PGSIZE)))).get (va % PGSIZE)) := if_pos ⟨low,present⟩

theorem contents_unmapped (none : va < KERNBASE → isPresent (m.pte d (va / PGSIZE)) = false) : m.contents d va = Option.none := by
  refine if_neg fun there => ?_
  rw [none there.1] at there
  cases there.2

theorem userByte_eq (low : va < KERNBASE) : userByte m d va = (m.contents d).read va := by
  rw [userByte,Contents.read]
  cases present : isPresent (m.pte d (va / PGSIZE)) with
  | false =>
    rw [contents_unmapped fun _ => present]
    rfl
  | true =>
    rw [contents_mapped low present,Option.bind_some]
    dsimp only
    rw [isUser_flags,Bool.true_and]

theorem contents_congr (ptes : ∀ u < 2 ^ 20, m'.pte d u = m.pte d u) (frames : ∀ x ∈ m.frames d, m'.page x = m.page x) :
    m'.contents d = m.contents d := by
  funext va
  by_cases there : va < KERNBASE ∧ isPresent (m.pte d (va / PGSIZE)) = true
  · have user := page_of_user there.1
    have same := ptes _ (lt_of_user user)
    rw [contents_mapped there.1 there.2,contents_mapped there.1 (by rw [same]; exact there.2),same,
      frames _ (mem_frames.mpr ⟨_,user,there.2,rfl⟩)]
  · have gone (low : va < KERNBASE) : isPresent (m.pte d (va / PGSIZE)) = false := by simpa [low] using there
    rw [contents_unmapped gone,contents_unmapped fun low => by rw [ptes _ (lt_of_user (page_of_user low)),gone low]]

theorem Owned.symm (owned : Owned All m p (m.tree q + R)) : Owned All m q (m.tree p + R) := by
  rw [Owned,add_left_comm (m.tree q)]
  exact owned

/-- A store changes one byte of the contents, and nothing that the other directory maps. -/
theorem Owned.userStore (owned : Owned All m p (m.tree q + R)) (reg : Region All) (va : Nat) (b : UInt8) :
    let m' := userStore m p va b
    Owned All m' p (m'.tree q + R) ∧ m'.contents p = (m.contents p).store va b ∧ m'.contents q = m.contents q := by
  dsimp only
  rw [Vm.userStore]
  split
  swap
  · rename_i traps
    refine ⟨owned,?_,rfl⟩
    rw [Contents.store]
    by_cases there : va < KERNBASE ∧ isPresent (m.pte p (va / PGSIZE)) = true
    · rw [contents_mapped there.1 there.2]
      dsimp only
      rw [isUser_flags,isWritable_flags,if_neg (by simpa [there.1,there.2] using traps)]
    · rw [contents_unmapped fun low => by simpa [low] using there]
  rename_i fine
  simp only [Bool.and_eq_true,decide_eq_true_eq] at fine
  obtain ⟨⟨⟨low,present⟩,user⟩,writable⟩ := fine
  have inside := page_of_user low
  have isFrame : PTE_ADDR (m.pte p (va / PGSIZE)) ∈ m.frames p := mem_frames.mpr ⟨_,inside,present,rfl⟩
  have inTree : PTE_ADDR (m.pte p (va / PGSIZE)) ∈ m.tree p := Multiset.mem_cons_of_mem (Multiset.mem_add.mpr (.inr isFrame))
  have new := setPage_same m (PTE_ADDR (m.pte p (va / PGSIZE))) ((m.page (PTE_ADDR (m.pte p (va / PGSIZE)))).write (va % PGSIZE) [b])
  have same (y : Nat) := setPage_other m (x := PTE_ADDR (m.pte p (va / PGSIZE))) (y := y)
    ((m.page (PTE_ADDR (m.pte p (va / PGSIZE)))).write (va % PGSIZE) [b])
  have free : (m.setPage (PTE_ADDR (m.pte p (va / PGSIZE))) ((m.page (PTE_ADDR (m.pte p (va / PGSIZE)))).write (va % PGSIZE) [b])).freelist =
    m.freelist := rfl
  generalize m.setPage (PTE_ADDR (m.pte p (va / PGSIZE))) ((m.page (PTE_ADDR (m.pte p (va / PGSIZE)))).write (va % PGSIZE) [b]) = m' at *
  obtain ⟨treeP,ptesP⟩ := owned.tree_outside reg (.inr (.inl isFrame)) same
  obtain ⟨treeQ,ptesQ⟩ := owned.symm.tree_outside reg (.inl (Multiset.mem_add.mpr (.inl inTree))) same
  refine ⟨by rw [treeQ]; exact owned.congr free treeP,?_,contents_congr ptesQ fun x there => same x ?_⟩
  · funext va'
    rw [Contents.store,contents_mapped low present]
    dsimp only
    rw [isUser_flags,isWritable_flags,user,writable,Bool.and_true,if_pos rfl]
    by_cases here : va' = va
    · subst here
      have samePte := ptesP _ (lt_of_user inside)
      rw [Function.update_self,contents_mapped low (by rw [samePte]; exact present),samePte,new,
        Bytes.get_write _ _ _ _ (Nat.mod_lt _ (by decide)),if_pos (by simp)]
      simp
    rw [Function.update_of_ne here]
    by_cases there : va' < KERNBASE ∧ isPresent (m.pte p (va' / PGSIZE)) = true
    · have samePte := ptesP _ (lt_of_user (page_of_user there.1))
      rw [contents_mapped there.1 there.2,contents_mapped there.1 (by rw [samePte]; exact there.2),samePte]
      by_cases samePage : va' / PGSIZE = va / PGSIZE
      · have other : va' % PGSIZE < va % PGSIZE ∨ va % PGSIZE + [b].length ≤ va' % PGSIZE := by
          simp only [PGSIZE,List.length_singleton] at *
          omega
        rw [samePage,new,Bytes.get_write_other _ _ _ _ other]
      · -- another page has another frame
        rw [same _ fun sameFrame => samePage ?_]
        exact (owned.apart reg).frames _ _ (page_of_user there.1) inside there.2 present sameFrame
    · have gone (low' : va' < KERNBASE) : isPresent (m.pte p (va' / PGSIZE)) = false := by simpa [low'] using there
      rw [contents_unmapped gone,contents_unmapped fun low' => by rw [ptesP _ (lt_of_user (page_of_user low')),gone low']]
  · rintro rfl
    exact (owned.symm.apart reg).restFrame _ (Multiset.mem_add.mpr (.inl inTree)) there

/-- After any stores, the contents of both are what their own stores have made of them. -/
theorem Owned.afterStores (owned : Owned All m p (m.tree d + R)) (reg : Region All) (stores : List Store) (side : Side) :
    (afterStores p d m stores).contents (side.pgdir p d) = (m.contents (side.pgdir p d)).stores side stores := by
  induction stores generalizing m with
  | nil => rfl
  | cons s rest ih =>
    obtain ⟨who,va,b⟩ := s
    cases who with
    | parent =>
      obtain ⟨owned',mine,other⟩ := owned.userStore reg va b
      refine (ih owned').trans ?_
      cases side with
      | parent =>
        show ((Vm.userStore m p va b).contents p).stores .parent rest = _
        rw [mine]
        rfl
      | child =>
        show ((Vm.userStore m p va b).contents d).stores .child rest = _
        rw [other]
        rfl
    | child =>
      obtain ⟨owned',mine,other⟩ := owned.symm.userStore reg va b
      refine (ih owned'.symm).trans ?_
      cases side with
      | parent =>
        show ((Vm.userStore m d va b).contents p).stores .parent rest = _
        rw [other]
        rfl
      | child =>
        show ((Vm.userStore m d va b).contents d).stores .child rest = _
        rw [mine]
        rfl

/-- The child maps the addresses below PGROUNDUP(sz) with the parent's flags and bytes, and no other user address. No frame is
    shared, and the parent is as it was. -/
structure Copy (m m' : Mem) (p d sz : Nat) : Prop where
  mapped : ∀ va < PGROUNDUP sz, m'.contents d va = m.contents p va ∧ m.contents p va ≠ none
  others : ∀ va < KERNBASE, PGROUNDUP sz ≤ va → m'.contents d va = none
  apart : ∀ x ∈ m'.frames d, x ∉ m'.frames p
  parent : m'.contents p = m.contents p

theorem page_of_rounded (low : sz < KERNBASE) : va < PGROUNDUP sz ↔ va / PGSIZE < pages sz := by
  rw [PGROUNDUP_eq low.le,Nat.div_lt_iff_lt_mul (by decide),Nat.mul_comm]

theorem Copy.contents_eq (copy : Copy m m' p d sz) (mapped : Mapped m p sz) (low : sz < KERNBASE) : m'.contents d = m.contents p := by
  funext va
  by_cases below : va < PGROUNDUP sz
  · exact (copy.mapped va below).1
  have parent : m.contents p va = none := by
    refine contents_unmapped fun user => ?_
    rw [page_of_rounded low,← mapped _ (page_of_user user)] at below
    simpa using below
  rw [parent]
  by_cases user : va < KERNBASE
  · exact copy.others va user (Nat.le_of_not_lt below)
  · exact contents_unmapped fun user' => absurd user' user

theorem copyuvm_copies (reg : Region All) (owned : Owned All m p R) (mapped : Mapped m p sz)
    {E : Stop → Prop} (sleep : (Fails never m ∨ ∃ d, Scarce never All (m.tree p + R) d False fun u => u < pages sz) → E .sleep) :
    Wp (handle never) E (copyuvm p sz) (fun r m' => ∃ d, r = some d ∧ Copy m m' p d sz ∧ Owned All m' p (m'.tree d + R)) m := by
  rw [← checked_true]
  have low := mapped.low owned reg
  have bound : pages sz ≤ USERPAGES := pages_le low.le
  have belongs : Belongs m p (m.tree p + R) := fun x inTree => Multiset.mem_add.mpr (.inl inTree)
  refine wp_copyuvm reg low owned.divided (fun m' d leak owned' kept lossless outside copies => ?_) (fun _ _ _ _ _ ⟨_,may⟩ => by cases may)
    (fun u _ before gone => ?_) fun _ short _ => sleep short
  · rw [lossless rfl,zero_add] at owned'
    obtain ⟨-,ptes,tree⟩ := belongs.kept kept
    rw [← tree] at owned'
    have parent : m'.contents p = m.contents p :=
      contents_congr ptes fun x isFrame => kept x (belongs x (Multiset.mem_cons_of_mem (Multiset.mem_add.mpr (.inr isFrame))))
    refine ⟨d,rfl,⟨fun va below => ?_,fun va user beyond => ?_,fun x child isParent => ?_,parent⟩,owned'.symm⟩
    · have page := (page_of_rounded low).mp below
      have user : va < KERNBASE := by
        simp only [USERPAGES,KERNBASE,PGSIZE] at *
        omega
      obtain ⟨source,present,flags,bytes⟩ := copies belongs _ page
      rw [contents_mapped user source,contents_mapped user present,flags,bytes]
      exact ⟨rfl,by simp⟩
    · refine contents_unmapped fun _ => ?_
      rw [outside _ (page_of_user user) (Nat.le_of_not_lt fun below => absurd ((page_of_rounded low).mpr below) (Nat.not_lt.mpr beyond))]
      rfl
    · refine (owned'.apart reg).restFrame x (Multiset.mem_add.mpr (.inl ?_)) child
      exact Multiset.mem_cons_of_mem (Multiset.mem_add.mpr (.inr isParent))
  · rw [(mapped u (by omega)).mpr before] at gone
    cases gone belongs

/-- `copyuvm` in a run in which `kalloc` never fails. The child is a copy, and after any sequence of stores by the two, what
    each of them reads at an address is what its own stores have made of the contents at the `fork`. So the stores of the
    other one make no difference. -/
theorem fork_isolates (reg : Region All) (owned : Owned All m p R) (mapped : Mapped m p sz)
    (given : Prog.exec (handle never) (copyuvm p sz) m ≠ .error .sleep) :
    ∃ d m', Prog.exec (handle never) (copyuvm p sz) m = .ok (some d,m') ∧ Copy m m' p d sz ∧
      (∀ stores side, ∀ va < KERNBASE,
        userByte (afterStores p d m' stores) (side.pgdir p d) va = ((m.contents p).stores side stores).read va) ∧
      ∀ side stores stores', stores.filter (·.side = side) = stores'.filter (·.side = side) → ∀ va < KERNBASE,
        userByte (afterStores p d m' stores) (side.pgdir p d) va = userByte (afterStores p d m' stores') (side.pgdir p d) va := by
  have spec := copyuvm_copies reg owned mapped (E := (· = .sleep)) fun _ => rfl
  cases run : Prog.exec (handle never) (copyuvm p sz) m with
  | error e =>
    have short := wp_error spec run
    rw [run,show e = .sleep from short] at given
    exact absurd rfl given
  | ok r =>
    obtain ⟨d,isD,copy,apart⟩ := wp_ok spec run
    have common (side : Side) : r.2.contents (side.pgdir p d) = m.contents p := by
      cases side with
      | parent => exact copy.parent
      | child => exact copy.contents_eq mapped (mapped.low owned reg)
    have reads (stores : List Store) (side : Side) (va : Nat) (low : va < KERNBASE) :
        userByte (afterStores p d r.2 stores) (side.pgdir p d) va = ((m.contents p).stores side stores).read va := by
      rw [userByte_eq low,apart.afterStores reg,common]
    refine ⟨d,r.2,by rw [← isD],copy,reads,fun side stores stores' same va low => ?_⟩
    rw [reads stores side va low,reads stores' side va low,Contents.stores,same,Contents.stores]

def onePageFree : Mem := { onePage with freelist := List.range' 0x300 1100 }

theorem region_onePageFree : Region ((onePageFree.freelist : Multiset Nat) + threePages) := by
  have far (x : Nat) (isFree : x ∈ onePageFree.freelist) : 0x300 ≤ x ∧ x < 0x300 + 1100 := by
    simpa [onePageFree] using List.mem_range'_1.mp isFree
  refine ⟨Multiset.nodup_add.mpr ⟨List.nodup_range',region_threePages.once,Multiset.disjoint_left.mpr fun {x} isFree => ?_⟩,fun x member => ?_⟩
  · have high := far x isFree
    intro used
    have low : x = 0x200 ∨ x = 0x201 ∨ x = 0x202 := by simpa [threePages] using used
    omega
  · rcases Multiset.mem_add.mp member with isFree | used
    · have := far x isFree
      simp only [firstPage,lastPage,V2P,kend,KERNBASE,PHYSTOP,PGSIZE]
      omega
    · exact region_threePages.range x used

theorem owned_onePageFree : Owned ((onePageFree.freelist : Multiset Nat) + threePages) onePageFree 0x200 0 := owned_supplied _

theorem tree_onePageFree : onePageFree.tree 0x200 + 0 = threePages := Multiset.add_right_inj.mp owned_onePageFree

theorem fork_isolates_onePage : ∃ d m', Prog.exec (handle never) (copyuvm 0x200 PGSIZE) onePageFree = .ok (some d,m') ∧
    Copy onePageFree m' 0x200 d PGSIZE := by
  have mapped : Mapped onePageFree 0x200 PGSIZE := mapped_onePage
  have plenty : Plenty never ((onePageFree.freelist : Multiset Nat) + threePages) (onePageFree.tree 0x200 + 0) 1 := by
    refine ⟨fun _ => rfl,?_⟩
    rw [tree_onePageFree]
    simp [onePageFree,threePages]
  have run := copyuvm_copies region_onePageFree owned_onePageFree mapped (E := fun _ => False)
    (plenty.room owned_onePageFree.divided fun u _ below => below)
  obtain ⟨r,m',answer,-⟩ := wp_returns run
  obtain ⟨d,m',answer,copy,-⟩ := fork_isolates region_onePageFree owned_onePageFree mapped (by simp [answer])
  exact ⟨d,m',answer,copy⟩

end Osce.Vm
