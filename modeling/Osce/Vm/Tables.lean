import Osce.Lib.Slots
import Osce.Vm.Code

/-!
Page directories as what they mean: `Mem.pte` is the entry for each virtual page, and `Mem.tree`
the pages that the directory owns, which are its own page, its page tables and the frames of its
user part. `Owned` divides a collection of pages among the free list, one directory and the rest.
-/
namespace Osce.Vm
open Osce.Lib Multiset

def own (pte : Nat) : Option Nat := if isPresent pte then some (PTE_ADDR pte) else none

@[simp] theorem isPresent_zero : isPresent 0 = false := rfl
@[simp] theorem own_zero : own 0 = none := rfl

theorem own_of_present {w : Nat} (present : isPresent w = true) : own w = some (PTE_ADDR w) := by simp [own,present]
theorem own_of_absent {w : Nat} (absent : isPresent w = false) : own w = none := by simp [own,absent]

theorem own_eq_some {w x : Nat} : own w = some x ↔ isPresent w = true ∧ PTE_ADDR w = x := by
  rw [own]
  split <;> simp_all

section
variable {pa flags : Nat}

theorem isPresent_mkPte (pa flags : Nat) : isPresent (mkPte pa flags) = true := by
  rw [isPresent,decide_eq_true_iff,mkPte,PGSIZE]
  omega

theorem PTE_ADDR_mkPte (small : flags < PGSIZE) : PTE_ADDR (mkPte pa flags) = pa := by
  simp only [PTE_ADDR,mkPte,PGSIZE] at *
  omega

theorem own_mkPte (small : flags < PGSIZE) : own (mkPte pa flags) = some pa := by
  rw [own_of_present (isPresent_mkPte pa flags),PTE_ADDR_mkPte small]

theorem mkPte_lt (page : pa < 2 ^ 20) (small : flags < PGSIZE) : mkPte pa flags < 2 ^ 32 := by
  simp only [mkPte,PGSIZE] at *
  omega

end

def USERPAGES : Nat := KERNBASE / PGSIZE

namespace Mem

def pde (m : Mem) (d i : Nat) : Nat := (m.page d).word i

/-- The entry for a virtual page, 0 where there is no page table. -/
def pte (m : Mem) (d v : Nat) : Nat :=
  if isPresent (m.pde d (v / NPTENTRIES)) then (m.page (PTE_ADDR (m.pde d (v / NPTENTRIES)))).word (v % NPTENTRIES) else 0

@[irreducible] def tables (m : Mem) (d : Nat) : Multiset Nat := taken NPDENTRIES fun i => own (m.pde d i)

@[irreducible] def frames (m : Mem) (d : Nat) : Multiset Nat := taken USERPAGES fun v => own (m.pte d v)

def tree (m : Mem) (d : Nat) : Multiset Nat := d ::ₘ (m.tables d + m.frames d)

end Mem

section
variable {m m' : Mem} {d v x : Nat}

theorem mem_tables : x ∈ m.tables d ↔ ∃ i < NPDENTRIES, isPresent (m.pde d i) = true ∧ PTE_ADDR (m.pde d i) = x := by
  simp only [Mem.tables,mem_taken,own_eq_some]

theorem mem_frames : x ∈ m.frames d ↔ ∃ v < USERPAGES, isPresent (m.pte d v) = true ∧ PTE_ADDR (m.pte d v) = x := by
  simp only [Mem.frames,mem_taken,own_eq_some]

theorem index_lt (inside : v < 2 ^ 20) : v / NPTENTRIES < NPDENTRIES := by
  simp only [NPTENTRIES,NPDENTRIES]
  omega

theorem lt_of_user (user : v < USERPAGES) : v < 2 ^ 20 := by
  simp only [USERPAGES,KERNBASE,PGSIZE] at user
  omega

/-- What a directory means depends on its own page and its page tables only. -/
theorem pde_congr (same : m'.page d = m.page d) (i : Nat) : m'.pde d i = m.pde d i := by
  rw [Mem.pde,Mem.pde,same]

theorem tables_congr (same : m'.page d = m.page d) : m'.tables d = m.tables d := by
  rw [Mem.tables,Mem.tables]
  exact taken_congr fun i _ => by rw [pde_congr same]

theorem pte_congr (same : m'.page d = m.page d) (tables : ∀ x ∈ m.tables d, m'.page x = m.page x) (inside : v < 2 ^ 20) :
    m'.pte d v = m.pte d v := by
  rw [Mem.pte,Mem.pte,pde_congr same]
  split
  · rename_i present
    rw [tables _ (mem_tables.mpr ⟨_,index_lt inside,present,rfl⟩)]
  · rfl

theorem frames_congr (same : ∀ v < USERPAGES, m'.pte d v = m.pte d v) : m'.frames d = m.frames d := by
  rw [Mem.frames,Mem.frames]
  exact taken_congr fun v user => by rw [same v user]

theorem table_inj (once : (m.tables d).Nodup) {i j : Nat} (hi : i < NPDENTRIES) (hj : j < NPDENTRIES)
    (first : isPresent (m.pde d i) = true) (second : isPresent (m.pde d j) = true)
    (same : PTE_ADDR (m.pde d i) = PTE_ADDR (m.pde d j)) : i = j := by
  rw [Mem.tables] at once
  refine taken_inj once hi hj (own_of_present first) ?_
  rw [same]
  exact own_of_present second

theorem frame_inj (once : (m.frames d).Nodup) {u v : Nat} (hu : u < USERPAGES) (hv : v < USERPAGES)
    (first : isPresent (m.pte d u) = true) (second : isPresent (m.pte d v) = true)
    (same : PTE_ADDR (m.pte d u) = PTE_ADDR (m.pte d v)) : u = v := by
  rw [Mem.frames] at once
  refine taken_inj once hu hv (own_of_present first) ?_
  rw [same]
  exact own_of_present second

theorem tree_congr (same : m'.page d = m.page d) (tables : ∀ x ∈ m.tables d, m'.page x = m.page x) : m'.tree d = m.tree d := by
  rw [Mem.tree,Mem.tree,tables_congr same,frames_congr fun v user => pte_congr same tables (lt_of_user user)]

end

/-- The page tables of a directory are different pages, and none is the directory. -/
structure Tabled (m : Mem) (d : Nat) : Prop where
  tables : (m.tables d).Nodup
  dir : ∀ x ∈ m.tables d, x ≠ d

/-- The frames of the user part too are different pages, which `kfree` accepts. -/
structure Separate (m : Mem) (d : Nat) : Prop where
  tabled : Tabled m d
  once : ∀ x, (m.frames d).count x ≤ 1
  dirFrame : d ∉ m.frames d
  tableFrame : ∀ x ∈ m.tables d, x ∉ m.frames d
  range : ∀ x ∈ m.frames d, firstPage ≤ x ∧ x < lastPage

/-- The pages that `kalloc` finds are different, and not in use there; their addresses are `uint`s. -/
structure Supplied (m : Mem) (d : Nat) : Prop where
  tabled : Tabled m d
  free : m.freelist.Nodup
  freeDir : d ∉ m.freelist
  freeTable : ∀ x ∈ m.freelist, x ∉ m.tables d
  page : ∀ x ∈ m.freelist, x < 2 ^ 20

section
variable {m m' : Mem} {d v x : Nat}

theorem Supplied.congr (supplied : Supplied m d) (free : m'.freelist = m.freelist) (dir : m'.page d = m.page d) : Supplied m' d := by
  obtain ⟨⟨tables,notDir⟩,once,freeDir,freeTable,page⟩ := supplied
  rw [← free] at once freeDir freeTable page
  rw [← tables_congr dir] at tables notDir freeTable
  exact ⟨⟨tables,notDir⟩,once,freeDir,freeTable,page⟩

theorem Tabled.attach (tabled : Tabled m d) {i : Nat} (inside : i < NPDENTRIES) (absent : isPresent (m.pde d i) = false)
    (zero : m.page x = Bytes.zero PGSIZE) (notDir : x ≠ d) (notTable : x ∉ m.tables d) (page : x < 2 ^ 20) {flags : Nat}
    (small : flags < PGSIZE) (new : m'.page d = (m.page d).setWord i (mkPte x flags)) (same : ∀ y, y ≠ d → m'.page y = m.page y) :
    Tabled m' d ∧ (∀ v < 2 ^ 20, m'.pte d v = m.pte d v) ∧ (∀ j, m'.pde d j = if j = i then mkPte x flags else m.pde d j) ∧
      m'.tables d = x ::ₘ m.tables d := by
  have entry (j : Nat) : m'.pde d j = if j = i then mkPte x flags else m.pde d j := by
    rw [Mem.pde,new]
    split
    · rename_i isI
      subst isI
      exact Bytes.word_setWord_same _ (by simp only [NPDENTRIES,PGSIZE] at *; omega) (mkPte_lt page small)
    · rename_i other
      exact Bytes.word_setWord_ne _ _ other
  have tables : m'.tables d = x ::ₘ m.tables d := by
    rw [Mem.tables,Mem.tables]
    refine taken_fill inside (fun j _ other => ?_) (own_of_absent absent) ?_
    · rw [entry,if_neg other]
    · rw [entry,if_pos rfl,own_mkPte small]
  refine ⟨?_,fun v low => ?_,entry,tables⟩
  · constructor <;> rw [tables]
    · exact nodup_cons.mpr ⟨notTable,tabled.tables⟩
    · exact forall_mem_cons.mpr ⟨notDir,tabled.dir⟩
  · rw [Mem.pte,Mem.pte,entry]
    split
    · rename_i isI
      rw [isI,absent,if_pos (isPresent_mkPte ..),PTE_ADDR_mkPte small,same x notDir,zero,Bytes.word_zero]
      rfl
    · split
      · rename_i present
        have isTable := mem_tables.mpr ⟨_,index_lt low,present,rfl⟩
        rw [same _ (tabled.dir _ isTable)]
      · rfl

theorem Tabled.setPte (tabled : Tabled m d) (inside : v < 2 ^ 20) (present : isPresent (m.pde d (v / NPTENTRIES)) = true) {w : Nat}
    (small : w < 2 ^ 32) (new : m'.page (PTE_ADDR (m.pde d (v / NPTENTRIES))) =
      (m.page (PTE_ADDR (m.pde d (v / NPTENTRIES)))).setWord (v % NPTENTRIES) w)
    (same : ∀ y, y ≠ PTE_ADDR (m.pde d (v / NPTENTRIES)) → m'.page y = m.page y) :
    m'.page d = m.page d ∧ ∀ u < 2 ^ 20, m'.pte d u = if u = v then w else m.pte d u := by
  have isTable := mem_tables.mpr ⟨_,index_lt inside,present,rfl⟩
  have dir : m'.page d = m.page d := same d (tabled.dir _ isTable).symm
  refine ⟨dir,fun u low => ?_⟩
  rw [Mem.pte,pde_congr dir]
  by_cases sameTable : u / NPTENTRIES = v / NPTENTRIES
  · rw [sameTable,if_pos present,new]
    by_cases isV : u = v
    · subst isV
      rw [if_pos rfl]
      exact Bytes.word_setWord_same _ (by simp only [NPTENTRIES,PGSIZE]; omega) small
    · have other : u % NPTENTRIES ≠ v % NPTENTRIES := by
        simp only [NPTENTRIES] at *
        omega
      rw [if_neg isV,Bytes.word_setWord_ne _ _ other,Mem.pte,sameTable,if_pos present]
  · have isV : u ≠ v := by
      rintro rfl
      exact sameTable rfl
    rw [if_neg isV,Mem.pte]
    split
    · rename_i present'
      rw [same]
      -- another table is another page
      intro samePage
      exact sameTable (table_inj tabled.tables (index_lt low) (index_lt inside) present' present samePage)
    · rfl

end

/-- The pages that are divided: none twice, and all in the range of the allocator. -/
structure Region (All : Multiset Nat) : Prop where
  once : All.Nodup
  range : ∀ x ∈ All, firstPage ≤ x ∧ x < lastPage

/-- A collection of pages divided among the free list, a directory and the rest. -/
def Owned (All : Multiset Nat) (m : Mem) (d : Nat) (R : Multiset Nat) : Prop := (m.freelist : Multiset Nat) + (m.tree d + R) = All

section
variable {All R : Multiset Nat} {m m' : Mem} {d v x : Nat}

theorem Owned.once (owned : Owned All m d R) (reg : Region All) : ((m.freelist : Multiset Nat) + (m.tree d + R)).Nodup := by
  rw [Owned] at owned
  rw [owned]
  exact reg.once

structure Apart (m : Mem) (d : Nat) (R : Multiset Nat) : Prop where
  tables : ∀ i j, i < NPDENTRIES → j < NPDENTRIES → isPresent (m.pde d i) = true → isPresent (m.pde d j) = true →
    PTE_ADDR (m.pde d i) = PTE_ADDR (m.pde d j) → i = j
  frames : ∀ u v, u < USERPAGES → v < USERPAGES → isPresent (m.pte d u) = true → isPresent (m.pte d v) = true →
    PTE_ADDR (m.pte d u) = PTE_ADDR (m.pte d v) → u = v
  dir : ∀ x ∈ m.tables d, x ≠ d
  freeDir : d ∉ m.freelist
  freeTable : ∀ x ∈ m.freelist, x ∉ m.tables d
  freeFrame : ∀ x ∈ m.freelist, x ∉ m.frames d
  dirFrame : d ∉ m.frames d
  tableFrame : ∀ x ∈ m.tables d, x ∉ m.frames d
  restDir : d ∉ R
  restTable : ∀ x ∈ R, x ∉ m.tables d
  restFrame : ∀ x ∈ R, x ∉ m.frames d
  restFree : ∀ x ∈ R, x ∉ m.freelist

theorem Owned.apart (owned : Owned All m d R) (reg : Region All) : Apart m d R := by
  obtain ⟨-,once,free⟩ := nodup_add.mp (owned.once reg)
  obtain ⟨tree,-,rest⟩ := nodup_add.mp once
  rw [Mem.tree] at tree rest free
  obtain ⟨dir,parts⟩ := nodup_cons.mp tree
  obtain ⟨tables,frames,between⟩ := nodup_add.mp parts
  have free' (x : Nat) (isFree : x ∈ m.freelist) : x ≠ d ∧ x ∉ m.tables d ∧ x ∉ m.frames d ∧ x ∉ R := by
    have none := disjoint_left.mp free (mem_coe.mpr isFree)
    simp only [mem_add,mem_cons,not_or] at none
    exact ⟨none.1.1,none.1.2.1,none.1.2.2,none.2⟩
  have rest' (x : Nat) (inRest : x ∈ R) : x ≠ d ∧ x ∉ m.tables d ∧ x ∉ m.frames d := by
    have none := disjoint_right.mp rest inRest
    simpa only [mem_add,mem_cons,not_or] using none
  simp only [mem_add,not_or] at dir
  exact ⟨fun i j => table_inj tables,fun u v => frame_inj frames,fun x isTable isDir => dir.1 (isDir ▸ isTable),fun isFree => (free' d isFree).1 rfl,fun x isFree => (free' x isFree).2.1,
    fun x isFree => (free' x isFree).2.2.1,dir.2,fun x isTable => disjoint_left.mp between isTable,
    fun inRest => (rest' d inRest).1 rfl,fun x inRest => (rest' x inRest).2.1,fun x inRest => (rest' x inRest).2.2,
    fun x inRest isFree => (free' x isFree).2.2.2 inRest⟩

theorem Owned.separate (owned : Owned All m d R) (reg : Region All) : Separate m d := by
  have apart := owned.apart reg
  obtain ⟨-,parts⟩ := nodup_cons.mp (nodup_add.mp (nodup_add.mp (owned.once reg)).2.1).1
  obtain ⟨tables,frames,-⟩ := nodup_add.mp parts
  refine ⟨⟨tables,apart.dir⟩,nodup_iff_count_le_one.mp frames,apart.dirFrame,apart.tableFrame,fun x isFrame => reg.range x ?_⟩
  rw [← (owned : _ = All)]
  exact mem_add.mpr (.inr (mem_add.mpr (.inl (mem_cons_of_mem (mem_add.mpr (.inr isFrame))))))

theorem Owned.range (owned : Owned All m d R) (reg : Region All) (member : x ∈ m.tree d + R ∨ x ∈ m.freelist) :
    firstPage ≤ x ∧ x < lastPage := by
  refine reg.range x ?_
  rw [← (owned : _ = All)]
  rcases member with inside | free
  · exact mem_add.mpr (.inr inside)
  · exact mem_add.mpr (.inl (mem_coe.mpr free))

theorem page_lt (low : x < lastPage) : x < 2 ^ 20 := by
  simp only [lastPage,PHYSTOP,PGSIZE] at low
  omega

theorem Owned.supplied (owned : Owned All m d R) (reg : Region All) : Supplied m d := by
  have apart := owned.apart reg
  exact ⟨(owned.separate reg).tabled,coe_nodup.mp (nodup_add.mp (owned.once reg)).1,apart.freeDir,apart.freeTable,
    fun x isFree => page_lt (owned.range reg (.inr isFree)).2⟩

theorem Owned.congr (owned : Owned All m d R) (free : m'.freelist = m.freelist) (tree : m'.tree d = m.tree d) :
    Owned All m' d R := by
  rw [Owned,free,tree]
  exact owned

theorem Owned.counted (owned : Owned All m d R) (calls : Nat) : Owned All ⟨m.page,m.freelist,calls⟩ d R :=
  owned.congr rfl (tree_congr rfl fun _ _ => rfl)

theorem Owned.take (owned : Owned All m d R) {rest : List Nat} (list : m.freelist = x :: rest) (page : m'.page = m.page)
    (free : m'.freelist = rest) : Owned All m' d (x ::ₘ R) := by
  have tree : m'.tree d = m.tree d := tree_congr (by rw [page]) (fun _ _ => by rw [page])
  rw [Owned] at *
  rw [free,tree,← owned,list,← cons_coe,add_cons,add_cons,cons_add]

theorem Owned.tree_outside (owned : Owned All m d R) (reg : Region All) (outside : x ∈ R ∨ x ∈ m.frames d ∨ x ∈ m.freelist ∨ x < firstPage)
    (same : ∀ y, y ≠ x → m'.page y = m.page y) : m'.tree d = m.tree d ∧ ∀ v < 2 ^ 20, m'.pte d v = m.pte d v := by
  have apart := owned.apart reg
  have low (y : Nat) (member : y ∈ m.tree d) : firstPage ≤ y := (owned.range reg (.inl (mem_add.mpr (.inl member)))).1
  have inTree (y : Nat) (isTable : y ∈ m.tables d) : y ∈ m.tree d :=
    mem_cons_of_mem (mem_add.mpr (.inl isTable))
  have notDir : d ≠ x := by
    rintro rfl
    rcases outside with rest | frame | free | small
    · exact apart.restDir rest
    · exact apart.dirFrame frame
    · exact apart.freeDir free
    · exact absurd (low d (mem_cons_self ..)) (by omega)
  have notTable (y : Nat) (isTable : y ∈ m.tables d) : y ≠ x := by
    rintro rfl
    rcases outside with rest | frame | free | small
    · exact apart.restTable y rest isTable
    · exact apart.tableFrame y isTable frame
    · exact apart.freeTable y free isTable
    · exact absurd (low y (inTree y isTable)) (by omega)
  have dir := same d notDir
  have tables (y : Nat) (isTable : y ∈ m.tables d) := same y (notTable y isTable)
  exact ⟨tree_congr dir tables,fun v inside => pte_congr dir tables inside⟩

def Spent (m m' : Mem) (d : Nat) : Prop := (m'.freelist : Multiset Nat) + m'.tables d = m.freelist + m.tables d

theorem Owned.spent (owned : Owned All m d R) (spent : Spent m m' d) (ptes : ∀ u < USERPAGES, m'.pte d u = m.pte d u) : Owned All m' d R := by
  rw [Owned,Mem.tree,frames_congr ptes,cons_add,add_cons,add_assoc,← add_assoc,spent]
  rw [Owned,Mem.tree,cons_add,add_cons,add_assoc,← add_assoc] at owned
  exact owned

theorem frames_set {w : Nat} (user : v < USERPAGES) (ptes : ∀ u < 2 ^ 20, m'.pte d u = if u = v then w else m.pte d u) :
    m'.frames d + single (own (m.pte d v)) = m.frames d + single (own w) := by
  have change := taken_change (f := fun u => own (m'.pte d u)) (g := fun u => own (m.pte d u)) user fun u inside other => by
    rw [ptes u (lt_of_user inside),if_neg other]
  rw [ptes v (lt_of_user user),if_pos rfl] at change
  rw [Mem.frames,Mem.frames]
  exact change

theorem Owned.map (owned : Owned All m d (x ::ₘ R)) {w : Nat} (user : v < USERPAGES) (absent : isPresent (m.pte d v) = false)
    (refers : own w = some x) (free : m'.freelist = m.freelist) (dir : m'.page d = m.page d)
    (ptes : ∀ u < 2 ^ 20, m'.pte d u = if u = v then w else m.pte d u) : Owned All m' d R := by
  have frames := frames_set user ptes
  rw [own_of_absent absent,refers,single_none,single_some,add_zero,add_comm,singleton_add] at frames
  rw [Owned] at *
  rw [← owned,free,Mem.tree,Mem.tree,tables_congr dir,frames]
  simp only [cons_add,add_cons]
  rw [cons_swap]

/-- An entry of the kernel's part is set, or one that refers to the same page as before. -/
theorem Owned.remap (owned : Owned All m d R) {w : Nat} (free : m'.freelist = m.freelist) (dir : m'.page d = m.page d)
    (ptes : ∀ u < 2 ^ 20, m'.pte d u = if u = v then w else m.pte d u) (same : USERPAGES ≤ v ∨ own w = own (m.pte d v)) :
    Owned All m' d R := by
  have frames : m'.frames d = m.frames d := by
    rw [Mem.frames,Mem.frames]
    refine taken_congr fun u user => ?_
    rw [ptes u (lt_of_user user)]
    split
    · rename_i isV
      rcases same with kernel | page
      · omega
      · rw [page,isV]
    · rfl
  exact owned.congr free (by rw [Mem.tree,Mem.tree,tables_congr dir,frames])

end

end Osce.Vm
