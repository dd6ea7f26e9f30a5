import Osce.Vm.Walk

/-!
What `deallocuvm`, `freevm`, `allocuvm` and `copyuvm` do to the user part of a directory. `Shrinks` and
`Extends` say what has become of the entries and of the contents of the pages.
-/
namespace Osce.Vm
open Osce.Lib Prog Multiset

variable {ok : Nat → Nat → Nat → Mem → Prop} {env : Env} {E : Stop → Prop} {All R : Multiset Nat} {m m' m'' : Mem} {d v x : Nat}

def pages (sz : Nat) : Nat := (sz + PGSIZE - 1) / PGSIZE

theorem lt_pages {sz : Nat} : v < pages sz ↔ PGSIZE * v < sz := by
  simp only [pages,PGSIZE]
  omega

theorem PGROUNDUP_eq {sz : Nat} (low : sz ≤ KERNBASE) : PGROUNDUP sz = PGSIZE * pages sz := by
  simp only [PGROUNDUP,wrap,pages,PGSIZE,KERNBASE] at *
  omega

theorem pages_mono {sz sz' : Nat} (le : sz ≤ sz') : pages sz ≤ pages sz' := Nat.div_le_div_right (by omega)

theorem pages_le {sz : Nat} (low : sz ≤ KERNBASE) : pages sz ≤ USERPAGES := by
  simp only [pages,USERPAGES,KERNBASE,PGSIZE] at *
  omega

theorem table_of_present (present : isPresent (m.pte d v) = true) : isPresent (m.pde d (v / NPTENTRIES)) = true := by
  by_contra absent
  rw [pte_of_absent (by simpa using absent)] at present
  cases present

structure Shrinks (m m' : Mem) (d : Nat) : Prop where
  dir : m'.page d = m.page d
  frames : ∀ x, x ∉ m.frames d → x ∉ m'.frames d
  kept : ∀ x, x ∉ m.tables d → x ∈ m'.frames d ∨ x ∉ m.frames d → m'.page x = m.page x

theorem Shrinks.rest (shrinks : Shrinks m m' d) (owned : Owned All m d R) (reg : Region All) (inRest : x ∈ R) :
    m'.page x = m.page x := by
  have apart := owned.apart reg
  exact shrinks.kept x (apart.restTable x inRest) (.inr (apart.restFrame x inRest))

theorem Separate.fewer (separate : Separate m d) (dir : m'.page d = m.page d) (fewer : m'.frames d ≤ m.frames d) : Separate m' d := by
  obtain ⟨⟨tables,notDir⟩,once,dirFrame,tableFrame,range⟩ := separate
  rw [← tables_congr dir] at tables notDir tableFrame
  exact ⟨⟨tables,notDir⟩,fun x => (count_le_of_le x fewer).trans (once x),fun there => dirFrame (mem_of_le fewer there),
    fun x isTable there => tableFrame x isTable (mem_of_le fewer there),fun x there => range x (mem_of_le fewer there)⟩

theorem wp_unmap {Q : Unit → Mem → Prop} {p : VmProg Unit} {f : Nat} (separate : Separate m d) (user : v < USERPAGES)
    (refers : own (m.pte d v) = some f)
    (next : ∀ m', Separate m' d → m'.freelist = f :: m.freelist → f ::ₘ m'.frames d = m.frames d → m'.page d = m.page d →
      (∀ u < 2 ^ 20, m'.pte d u = if u = v then 0 else m.pte d u) → (∀ x, x ∉ m.tables d → x ≠ f → m'.page x = m.page x) →
      Wp (checked ok env) E p Q m') :
    Wp (checked ok env) E (do
      perform (.kfree f)
      perform (.setEntry (pteAt m d v).1 (pteAt m d v).2 0)
      p) Q m := by
  obtain ⟨present,isF⟩ := own_eq_some.mp refers
  have table := table_of_present present
  have isFrame : f ∈ m.frames d := mem_frames.mpr ⟨v,user,present,isF⟩
  obtain ⟨low,high⟩ := separate.range f isFrame
  rw [wp_bind,wp_kfree low high,wp_bind,wp_setEntry]
  have page₁ (y : Nat) (other : y ≠ f) : (m.setPage f (filled 1)).page y = m.page y := setPage_other _ _ other
  generalize m.setPage f (filled 1) = m₁ at *
  -- the junk in the frame is no part of the directory
  have dir₁ : m₁.page d = m.page d := page₁ d fun isDir => separate.dirFrame (isDir ▸ isFrame)
  have tables₁ (y : Nat) (isTable : y ∈ m.tables d) : m₁.page y = m.page y :=
    page₁ y fun isF => separate.tableFrame y isTable (isF ▸ isFrame)
  have tabled₁ : Tabled m₁ d := by
    constructor <;> rw [tables_congr dir₁]
    · exact separate.tabled.tables
    · exact separate.tabled.dir
  have table₁ : isPresent (m₁.pde d (v / NPTENTRIES)) = true := by
    rw [pde_congr dir₁]
    exact table
  have at₁ : PTE_ADDR (m₁.pde d (v / NPTENTRIES)) = (pteAt m d v).1 := by rw [pteAt,pde_congr dir₁]
  have new := setPage_same ⟨m₁.page,f :: m.freelist,m.calls⟩ (pteAt m d v).1 ((m₁.page (pteAt m d v).1).setWord (pteAt m d v).2 0)
  have same (y : Nat) := setPage_other ⟨m₁.page,f :: m.freelist,m.calls⟩ (x := (pteAt m d v).1) (y := y)
    ((m₁.page (pteAt m d v).1).setWord (pteAt m d v).2 0)
  have list : (Mem.setPage ⟨m₁.page,f :: m.freelist,m.calls⟩ (pteAt m d v).1
    ((m₁.page (pteAt m d v).1).setWord (pteAt m d v).2 0)).freelist = f :: m.freelist := rfl
  generalize Mem.setPage ⟨m₁.page,f :: m.freelist,m.calls⟩ (pteAt m d v).1 _ = m₂ at *
  have isTable : (pteAt m d v).1 ∈ m.tables d := mem_tables.mpr ⟨_,index_lt (lt_of_user user),table,rfl⟩
  rw [← at₁] at new same isTable
  obtain ⟨dir,ptes⟩ := tabled₁.setPte (lt_of_user user) table₁ (by decide) new same
  have ptes₂ (u : Nat) (inside : u < 2 ^ 20) : m₂.pte d u = if u = v then 0 else m.pte d u := by
    rw [ptes u inside]
    split
    · rfl
    · exact pte_congr dir₁ tables₁ inside
  have frames := frames_set user ptes₂
  rw [refers,own_zero,single_none,single_some,add_zero,add_comm,singleton_add] at frames
  have fewer : m₂.frames d ≤ m.frames d := by
    rw [← frames]
    exact le_cons_self ..
  exact next m₂ (separate.fewer (dir.trans dir₁) fewer) list frames (dir.trans dir₁) ptes₂
    fun y notTable other => (same y fun isAt => notTable (isAt ▸ isTable)).trans (page₁ y other)

/-- The pages that the loop jumps over: where it finds no page table it goes on one table further, at the same place there. -/
def Skipped (m : Mem) (d v u : Nat) : Prop :=
  u % NPTENTRIES < v % NPTENTRIES ∧ ∀ i, v / NPTENTRIES ≤ i → i < u / NPTENTRIES → isPresent (m.pde d i) = false

def Cleared (m : Mem) (d v w u : Nat) : Prop := (v ≤ u ∧ u < w) ∧ isPresent (m.pte d u) = true ∧ ¬Skipped m d v u

/-- The loop passes over no page of another table: it starts at the first page of a table, or in one that is there. -/
def Steady (m : Mem) (d v : Nat) : Prop := v % NPTENTRIES = 0 ∨ isPresent (m.pde d (v / NPTENTRIES)) = true

theorem Steady.not_skipped {u : Nat} (steady : Steady m d v) (after : v ≤ u) : ¬Skipped m d v u := by
  rintro ⟨lower,absent⟩
  rcases steady with first | present
  · omega
  · rw [absent _ (le_refl _) (by simp only [NPTENTRIES] at *; omega)] at present
    cases present

theorem Steady.succ (table : isPresent (m.pde d (v / NPTENTRIES)) = true) : Steady m d (v + 1) := by
  by_cases aligned : (v + 1) % NPTENTRIES = 0
  · exact .inl aligned
  · have sameTable : (v + 1) / NPTENTRIES = v / NPTENTRIES := by
      simp only [NPTENTRIES] at aligned ⊢
      omega
    exact .inr (by rwa [sameTable])

/-- What the loop frees from here, where the page table is there, is this page and what it frees from the next one on. -/
theorem cleared_succ {w u : Nat} (table : isPresent (m.pde d (v / NPTENTRIES)) = true) (other : u ≠ v) :
    Cleared m d v w u ↔ Cleared m d (v + 1) w u := by
  constructor
  · rintro ⟨⟨after,before⟩,present,_⟩
    exact ⟨⟨by omega,before⟩,present,(Steady.succ table).not_skipped (by omega)⟩
  · rintro ⟨⟨after,before⟩,present,_⟩
    exact ⟨⟨by omega,before⟩,present,Steady.not_skipped (.inr table) (by omega)⟩

/-- Where it is not there, it is what the loop frees after the jump. -/
theorem cleared_jump {w u : Nat} (absent : isPresent (m.pde d (v / NPTENTRIES)) = false) :
    Cleared m d v w u ↔ Cleared m d (v + NPTENTRIES) w u := by
  have next : (v + NPTENTRIES) / NPTENTRIES = v / NPTENTRIES + 1 := Nat.add_div_right _ (by decide)
  have place : (v + NPTENTRIES) % NPTENTRIES = v % NPTENTRIES := Nat.add_mod_right ..
  have skips : Skipped m d v u ↔ Skipped m d (v + NPTENTRIES) u := by
    rw [Skipped,Skipped,next,place]
    refine and_congr_right fun _ => ⟨fun none i low => none i (by omega),fun none i low high => ?_⟩
    by_cases isV : i = v / NPTENTRIES
    · rw [isV,absent]
    · exact none i (by omega) high
  have later (present : isPresent (m.pte d u) = true) : u / NPTENTRIES ≠ v / NPTENTRIES := by
    intro same
    have table := table_of_present present
    rw [same,absent] at table
    cases table
  constructor
  · rintro ⟨⟨after,before⟩,present,not⟩
    have other := later present
    refine ⟨⟨?_,before⟩,present,skips.not.mp not⟩
    by_contra early
    refine not ⟨?_,fun i low high => ?_⟩
    · simp only [NPTENTRIES] at *
      omega
    · rw [show i = v / NPTENTRIES by simp only [NPTENTRIES] at *; omega,absent]
  · rintro ⟨⟨after,before⟩,present,not⟩
    exact ⟨⟨by omega,before⟩,present,skips.not.mpr not⟩

theorem cleared_congr {w u : Nat} (dir : m'.page d = m.page d) (same : m'.pte d u = m.pte d u) : Cleared m' d v w u ↔ Cleared m d v w u := by
  simp only [Cleared,Skipped,same,pde_congr dir]

/-- What `deallocuvm` has done: the frames of certain pages are on the free list, and their entries are 0. -/
structure Deallocated (m m' : Mem) (d : Nat) (cleared : Nat → Prop) : Prop where
  free : ∃ freed : List Nat, m'.freelist = freed ++ m.freelist ∧ freed + m'.frames d = m.frames d ∧
    ∀ x, x ∉ m.tables d → x ∉ freed → m'.page x = m.page x
  dir : m'.page d = m.page d
  zero : ∀ u < 2 ^ 20, cleared u → m'.pte d u = 0
  same : ∀ u < 2 ^ 20, ¬cleared u → m'.pte d u = m.pte d u

theorem Deallocated.refl {cleared : Nat → Prop} (none : ∀ u, ¬cleared u) : Deallocated m m d cleared :=
  ⟨⟨[],rfl,zero_add _,fun _ _ _ => rfl⟩,rfl,fun u _ there => absurd there (none u),fun _ _ _ => rfl⟩

theorem wp_deallocuvm_from {Q : Unit → Mem → Prop} {oldsz : Nat} (low : oldsz ≤ KERNBASE) (turns : Nat)
    (enough : oldsz ≤ PGSIZE * (v + turns)) (separate : Separate m d)
    (done : ∀ m', Deallocated m m' d (Cleared m d v (pages oldsz)) → Q () m') :
    Wp (checked ok env) E (deallocuvm_from d oldsz turns (PGSIZE * v)) Q m := by
  have past (v : Nat) (more : ¬PGSIZE * v < oldsz) (u : Nat) : ¬Cleared m d v (pages oldsz) u := by
    rintro ⟨⟨after,before⟩,_⟩
    exact more (lt_pages.mp (by omega))
  induction turns generalizing m v with
  | zero => exact done m (.refl (past v (Nat.not_lt.mpr enough)))
  | succ turns ih =>
    rw [deallocuvm_from]
    by_cases more : PGSIZE * v < oldsz
    swap
    · rw [if_neg more]
      exact done m (.refl (past v more))
    have user : v < USERPAGES := by
      simp only [USERPAGES,KERNBASE,PGSIZE] at *
      omega
    have here : v < pages oldsz := lt_pages.mpr more
    have number : PGSIZE * v / PGSIZE = v := Nat.mul_div_cancel_left v (by decide)
    have nextPage : wrap (PGSIZE * v + PGSIZE) = PGSIZE * (v + 1) := by
      simp only [wrap,USERPAGES,KERNBASE,PGSIZE] at *
      omega
    rw [if_pos more,wp_bind,wp_walk (by simp only [KERNBASE] at low; omega),number]
    by_cases table : isPresent (m.pde d (v / NPTENTRIES)) = true
    · rw [if_pos table]
      show Wp _ _ (perform (.entry (pteAt m d v).1 (pteAt m d v).2) >>= _) _ _
      rw [wp_bind,wp_entry,word_pteAt table]
      by_cases present : isPresent (m.pte d v) = true
      · have refers := own_of_present present
        have notZero : PTE_ADDR (m.pte d v) ≠ 0 := by
          have := (separate.range _ (mem_frames.mpr ⟨v,user,present,rfl⟩)).1
          simp only [firstPage,V2P,kend,KERNBASE,PGSIZE] at this
          omega
        rw [if_pos present,if_neg notZero]
        refine wp_unmap separate user refers fun m₁ separate₁ list frames dir ptes kept => ?_
        rw [nextPage]
        refine ih (by simp only [PGSIZE] at *; omega) separate₁ (fun m' after => done m' ?_) (fun v' more' u => ?_)
        · obtain ⟨⟨freed,list',frames',kept'⟩,dir',zero,same⟩ := after
          have cleared (u : Nat) (inside : u < 2 ^ 20) (other : u ≠ v) : Cleared m d v (pages oldsz) u ↔ Cleared m₁ d (v + 1) (pages oldsz) u := by
            rw [cleared_congr dir (by rw [ptes u inside,if_neg other])]
            exact cleared_succ table other
          refine ⟨⟨freed ++ [PTE_ADDR (m.pte d v)],?_,?_,fun x notTable notFreed => ?_⟩,dir'.trans dir,fun u inside there => ?_,fun u inside not => ?_⟩
          · rw [list',list,List.append_assoc,List.singleton_append]
          · rw [← coe_add,add_right_comm,frames',← frames,coe_singleton,add_comm,singleton_add]
          · rw [List.mem_append,List.mem_singleton,not_or] at notFreed
            rw [kept' x (by rwa [tables_congr dir]) notFreed.1,kept x notTable notFreed.2]
          · by_cases isV : u = v
            · rw [same u inside fun later => by have := later.1.1; omega,ptes u inside,if_pos isV]
            · exact zero u inside ((cleared u inside isV).mp there)
          · have isV : u ≠ v := by
              rintro rfl
              exact not ⟨⟨le_refl u,here⟩,present,Steady.not_skipped (.inr table) (le_refl u)⟩
            rw [same u inside fun later => not ((cleared u inside isV).mpr later),ptes u inside,if_neg isV]
        · rintro ⟨⟨after,before⟩,_⟩
          exact more' (lt_pages.mp (by omega))
      · rw [if_neg present,nextPage]
        refine ih (by simp only [PGSIZE] at *; omega) separate (fun m' after => done m' ?_) past
        have same : Cleared m d v (pages oldsz) = Cleared m d (v + 1) (pages oldsz) := by
          funext u
          by_cases isV : u = v
          · subst isV
            exact propext ⟨fun there => absurd there.2.1 present,fun there => absurd there.2.1 present⟩
          · exact propext (cleared_succ table isV)
        rwa [same]
    · rw [if_neg table]
      have nextTable : wrap (PGSIZE * v + (NPTENTRIES - 1) * PGSIZE + PGSIZE) = PGSIZE * (v + NPTENTRIES) := by
        simp only [wrap,USERPAGES,KERNBASE,PGSIZE,NPTENTRIES] at *
        omega
      show Wp _ _ (deallocuvm_from d oldsz turns _) _ _
      rw [nextTable]
      refine ih (by simp only [PGSIZE,NPTENTRIES] at *; omega) separate (fun m' after => done m' ?_) past
      have same : Cleared m d v (pages oldsz) = Cleared m d (v + NPTENTRIES) (pages oldsz) :=
        funext fun u => propext (cleared_jump (by simpa using table))
      rwa [same]

/-- `deallocuvm`: the frames between the two sizes are freed, but for those that the loop jumps over. -/
theorem wp_deallocuvm_by {Q : Nat → Mem → Prop} {oldsz newsz : Nat} (low : oldsz ≤ KERNBASE) (separate : Separate m d)
    (done : ∀ m', Deallocated m m' d (Cleared m d (pages newsz) (pages oldsz)) → Q (min oldsz newsz) m') :
    Wp (checked ok env) E (deallocuvm d oldsz newsz) Q m := by
  rw [deallocuvm]
  by_cases smaller : newsz ≥ oldsz
  · rw [if_pos smaller]
    have final := done m (.refl fun u there => ?_)
    · rwa [min_eq_left smaller] at final
    · have := pages_mono smaller
      obtain ⟨⟨_,_⟩,_⟩ := there
      omega
  · rw [if_neg smaller,wp_bind,PGROUNDUP_eq (by omega)]
    refine wp_deallocuvm_from low _ (by simp only [PGSIZE]; omega) separate fun m' after => ?_
    have final := done m' after
    rwa [min_eq_right (by omega)] at final

theorem Owned.deallocated {cleared : Nat → Prop} (owned : Owned All m d R) (reg : Region All) (after : Deallocated m m' d cleared) :
    Owned All m' d R ∧ Shrinks m m' d := by
  obtain ⟨⟨freed,list,frames,kept⟩,dir,_⟩ := after
  refine ⟨?_,dir,fun x never there => never ?_,fun x notTable stays => kept x notTable fun isFreed => ?_⟩
  · rw [Owned,Mem.tree,← frames] at owned
    rw [← owned,Owned,Mem.tree,tables_congr dir,list,← coe_add]
    simp only [cons_add,add_cons]
    abel_nf
  · rw [← frames]
    exact mem_add.mpr (.inr there)
  · rcases stays with there | never
    · have once := (owned.separate reg).once x
      rw [← frames,count_add] at once
      have := count_pos.mpr (mem_coe.mpr isFreed)
      have := count_pos.mpr there
      omega
    · exact never (by rw [← frames]; exact mem_add.mpr (.inl (mem_coe.mpr isFreed)))

theorem wp_deallocuvm {Q : Nat → Mem → Prop} {oldsz newsz : Nat} (reg : Region All) (low : oldsz ≤ KERNBASE) (owned : Owned All m d R)
    (larger : oldsz ≤ newsz → Q oldsz m)
    (done : ∀ m', newsz < oldsz → Owned All m' d R → Shrinks m m' d →
      (∀ u < 2 ^ 20, m'.pte d u = m.pte d u ∨ pages newsz ≤ u ∧ u < pages oldsz ∧ m'.pte d u = 0) →
      (Steady m d (pages newsz) → ∀ u, pages newsz ≤ u → u < pages oldsz → isPresent (m'.pte d u) = false) → Q newsz m') :
    Wp (checked ok env) E (deallocuvm d oldsz newsz) Q m := by
  by_cases smaller : newsz ≥ oldsz
  · rw [deallocuvm,if_pos smaller]
    exact larger smaller
  refine wp_deallocuvm_by low (owned.separate reg) fun m' after => ?_
  obtain ⟨owned',shrinks⟩ := owned.deallocated reg after
  rw [min_eq_right (by omega)]
  refine done m' (by omega) owned' shrinks (fun u inside => ?_) fun steady u from' before => ?_
  · by_cases there : Cleared m d (pages newsz) (pages oldsz) u
    · exact .inr ⟨there.1.1,there.1.2,after.zero u inside there⟩
    · exact .inl (after.same u inside there)
  · have inside : u < 2 ^ 20 := lt_of_user (before.trans_le (pages_le low))
    by_cases present : isPresent (m.pte d u) = true
    · rw [after.zero u inside ⟨⟨from',before⟩,present,steady.not_skipped from'⟩]
      rfl
    · rw [after.same u inside fun there => present there.2.1]
      simpa using present

/-- The loop of `freevm`: the page tables of the entries that are left go to the free list. -/
theorem wp_freevm_from {Q : Unit → Mem → Prop} (reg : Region All) (left : List Nat)
    (divided : (m.freelist : Multiset Nat) + (d ::ₘ ((left.map fun i => single (own (m.pde d i))).sum + R)) = All)
    (done : ∀ m', Divided All m' (d ::ₘ R) → (∀ x ∈ R, m'.page x = m.page x) → Q () m') :
    Wp (checked ok env) E (freevm_from d left) Q m := by
  induction left generalizing m with
  | nil =>
    refine done m ?_ fun _ _ => rfl
    rwa [List.map_nil,List.sum_nil,zero_add] at divided
  | cons i left ih =>
    rw [freevm_from,wp_bind,wp_entry]
    show Wp _ _ (if isPresent (m.pde d i) then (perform (.kfree (PTE_ADDR (m.pde d i))) >>= fun _ => freevm_from d left) else _) _ _
    rw [List.map_cons,List.sum_cons] at divided
    by_cases present : isPresent (m.pde d i) = true
    · rw [own_of_present present,single_some] at divided
      rw [if_pos present]
      generalize PTE_ADDR (m.pde d i) = x at *
      have once := reg.once
      rw [← divided] at once
      obtain ⟨dir,parts⟩ := nodup_cons.mp (nodup_add.mp once).2.1
      have notDir : d ≠ x := by
        rintro rfl
        exact dir (mem_add.mpr (.inl (mem_add.mpr (.inl (mem_singleton_self d)))))
      have notRest (y : Nat) (inRest : y ∈ R) : y ≠ x := by
        rintro rfl
        exact disjoint_left.mp (nodup_add.mp parts).2.2
          (mem_add.mpr (.inl (mem_singleton_self y))) inRest
      obtain ⟨low,high⟩ := reg.range x (by
        rw [← divided]
        exact mem_add.mpr (.inr (mem_cons_of_mem (mem_add.mpr (.inl (mem_add.mpr
          (.inl (mem_singleton_self x))))))))
      rw [wp_bind,wp_kfree low high]
      refine ih ?_ fun m' divided' kept => done m' divided' fun y inRest => ?_
      · have same (j : Nat) : Mem.pde ⟨(m.setPage x (filled 1)).page,x :: m.freelist,m.calls⟩ d j = m.pde d j :=
          pde_congr (setPage_other _ _ notDir) j
        simp only [same]
        rw [← divided,← cons_coe,singleton_add]
        simp only [cons_add,add_cons]
      · rw [kept y inRest]
        exact setPage_other _ _ (notRest y inRest)
    · rw [own_of_absent (by simpa using present),single_none,zero_add] at divided
      rw [if_neg present]
      exact ih divided done

theorem wp_freevm {Q : Unit → Mem → Prop} (reg : Region All) (owned : Owned All m d R)
    (done : ∀ m', Divided All m' R → (∀ x ∈ R, m'.page x = m.page x) → Q () m') : Wp (checked ok env) E (freevm d) Q m := by
  rw [freevm,wp_bind]
  generalize whole : List.range NPDENTRIES = entries
  refine wp_deallocuvm reg (le_refl _) owned (fun larger => by simp only [KERNBASE] at larger; omega) fun m₁ _ owned₁ shrinks _ cleared => ?_
  have frames : m₁.frames d = 0 := by
    rw [Mem.frames]
    exact taken_empty fun u user => own_of_absent (cleared (.inl rfl) u (Nat.zero_le u) user)
  have divided : (m₁.freelist : Multiset Nat) +
      (d ::ₘ ((entries.map fun i => single (own (m₁.pde d i))).sum + R)) = All := by
    rw [← whole,← taken_eq_sum]
    have parts : (m₁.freelist : Multiset Nat) + (m₁.tree d + R) = All := owned₁
    rwa [Mem.tree,frames,add_zero,Mem.tables,cons_add] at parts
  rw [wp_bind]
  refine wp_freevm_from reg _ divided fun m₂ divided₂ kept => ?_
  rw [Divided] at divided₂
  obtain ⟨low,high⟩ := reg.range d (by
    rw [← divided₂]
    exact mem_add.mpr (.inr (mem_cons_self ..)))
  have notRest (x : Nat) (inRest : x ∈ R) : x ≠ d := by
    rintro rfl
    exact (owned.apart reg).restDir inRest
  rw [wp_kfree low high]
  refine done _ ?_ fun x inRest => ?_
  · rw [Divided,← divided₂,← cons_coe,cons_add,add_cons]
  · exact ((setPage_other _ _ (notRest x inRest)).trans (kept x inRest)).trans (shrinks.rest owned reg inRest)

/-- A page that `kalloc` has given and that has been filled is no part of the directory yet. -/
theorem Owned.fresh (owned : Owned All m d R) (reg : Region All) (at' : Nat → Prop) {r : Nat} {rest : List Nat}
    (list : m.freelist = r :: rest) (same : ∀ y, y ≠ r → m'.page y = m.page y) (free : m'.freelist = rest) :
    Owned All m' d (r ::ₘ R) ∧ (∀ u < 2 ^ 20, m'.pte d u = m.pte d u) ∧ Grows at' m m' d := by
  have isFree : r ∈ m.freelist := by
    rw [list]
    exact List.mem_cons_self ..
  have apart := owned.apart reg
  obtain ⟨tree,ptes⟩ := owned.tree_outside reg (.inr (.inr (.inl isFree))) same
  have dir : m'.page d = m.page d := same d fun isDir => apart.freeDir (isDir ▸ isFree)
  have taken : Owned All ⟨m.page,rest,0⟩ d (r ::ₘ R) := owned.take list rfl rfl
  refine ⟨taken.congr free (tree.trans (tree_congr rfl fun _ _ => rfl)),ptes,⟨fun x inList => ?_,fun x isTable => .inl ?_,
    fun x notFree _ _ => same x fun isR => notFree (isR ▸ isFree),fun i _ => pde_congr dir i⟩⟩
  · rw [list]
    exact List.mem_cons_of_mem _ (free ▸ inList)
  · exact mem_of_le (le_of_eq (tables_congr dir)) isTable

theorem userTable (user : v < USERPAGES) {i : Nat} (isTable : i = v / NPTENTRIES) : i < USERPAGES / NPTENTRIES := by
  rw [isTable]
  exact Nat.div_lt_div_of_lt_of_dvd (by decide) user

theorem not_userTable {i : Nat} (between : inGap i) : ¬i < USERPAGES / NPTENTRIES := by
  have := between.1
  simp only [USERPAGES,KERNBASE,PHYSTOP,PGSIZE,NPTENTRIES] at this ⊢
  omega

/-- A page that `kalloc` has given is filled and mapped; where `walkpgdir` finds no page for the table, it is lost. -/
theorem wp_map_fresh {Q : Int → Mem → Prop} {r flags : Nat} {rest : List Nat} {pg : Page} (reg : Region All) (owned : Owned All m d R)
    (list : m.freelist = r :: rest) (user : v < USERPAGES) (small : flags < PGSIZE)
    (done : ∀ m', Owned All m' d R → isPresent (m.pte d v) = false → m'.pte d v = mkPte r flags →
      (∀ u < 2 ^ 20, u ≠ v → m'.pte d u = m.pte d u) → m'.page r = pg → Grows (· = v / NPTENTRIES) m m' d → Q 0 m')
    (fail : ∀ m', Owned All m' d (r ::ₘ R) → (∀ u < 2 ^ 20, m'.pte d u = m.pte d u) → Grows (· = v / NPTENTRIES) m m' d →
      Scarce env All R d (Gapless m d) (fun u => isPresent (m.pte d u) = true) → env.may true = true → Q (-1) m')
    (remap : isPresent (m.pte d v) = true → E (.panic "remap"))
    (sleep : Scarce env All R d (Gapless m d) (fun u => isPresent (m.pte d u) = true) → env.may true = false → E .sleep) :
    Wp (checked ok env) E (mappages d (PGSIZE * v) PGSIZE r flags) Q (Mem.setPage ⟨m.page,rest,m.calls + 1⟩ r pg) := by
  have new := setPage_same ⟨m.page,rest,m.calls + 1⟩ r pg
  have same (y : Nat) := setPage_other ⟨m.page,rest,m.calls + 1⟩ (x := r) (y := y) pg
  have free : (Mem.setPage ⟨m.page,rest,m.calls + 1⟩ r pg).freelist = rest := rfl
  generalize Mem.setPage ⟨m.page,rest,m.calls + 1⟩ r pg = m₁ at *
  obtain ⟨owned₁,ptes₁,grows₁⟩ := owned.fresh reg (· = v / NPTENTRIES) list same free
  have low := lt_of_user user
  have short (fails : Fails env m₁) : Scarce env All R d (Gapless m d) fun u => isPresent (m.pte d u) = true := by
    refine ⟨m₁,r ::ₘ R,fails,owned₁,by rw [card_cons],grows₁.gapless fun i between isTable => ?_,fun u low' present => ?_⟩
    · exact not_userTable between (userTable user isTable)
    · rwa [ptes₁ u (lt_of_user low')] at present
  refine wp_mappages_page reg owned₁ user small (fun m₂ owned₂ absent ptes₂ grows₂ => ?_)
    (fun fails => fail _ (owned₁.counted _) ptes₁ (grows₁.trans (.refl rfl rfl)) (short fails)) (fun present => ?_) fun fails => sleep (short fails)
  · refine done m₂ owned₂ (by rwa [ptes₁ v low] at absent) (by rw [ptes₂ v low,if_pos rfl]) (fun u low' other => ?_) ?_ (grows₁.trans grows₂)
    · rw [ptes₂ u low',if_neg other,ptes₁ u low']
    · rw [grows₂.rest owned₁ reg (mem_cons_self ..),new]
  · rw [ptes₁ v low] at present
    exact remap present

def New (m m' : Mem) (d u : Nat) : Prop :=
  isPresent (m.pte d u) = false ∧ ∃ x ∈ m.freelist, m'.pte d u = mkPte x (PTE_W + PTE_U) ∧ m'.page x = Bytes.zero PGSIZE

structure Extends (m m' : Mem) (d v k : Nat) : Prop where
  grows : Grows (· < USERPAGES / NPTENTRIES) m m' d
  outside : ∀ u < 2 ^ 20, ¬(v ≤ u ∧ u < k) → m'.pte d u = m.pte d u
  inside : ∀ u, v ≤ u → u < k → m'.pte d u = m.pte d u ∨ New m m' d u

theorem Extends.refl (free : m'.freelist = m.freelist) (page : m'.page = m.page) (d v : Nat) : Extends m m' d v v :=
  ⟨.refl free page,fun u low _ => pte_congr (by rw [page]) (fun _ _ => by rw [page]) low,fun u after before => absurd before (by omega)⟩

theorem Extends.cons (grows : Grows (· < USERPAGES / NPTENTRIES) m m' d) (owned : Owned All m' d R) (reg : Region All)
    (user : v < USERPAGES) (others : ∀ u < 2 ^ 20, u ≠ v → m'.pte d u = m.pte d u) (here : m'.pte d v = m.pte d v ∨ New m m' d v)
    {k : Nat} (rest : Extends m' m'' d (v + 1) k) (after : v + 1 ≤ k) (bound : k ≤ USERPAGES) :
    Extends m m'' d v k ∧ (New m m' d v → New m m'' d v) ∧ ∀ u < USERPAGES, v < u → New m' m'' d u → New m m'' d u := by
  have atV : m''.pte d v = m'.pte d v := rest.outside v (lt_of_user user) (by omega)
  have newV (new : New m m' d v) : New m m'' d v := by
    obtain ⟨absent,x,isFree,pte,zero⟩ := new
    refine ⟨absent,x,isFree,atV.trans pte,?_⟩
    have isFrame : x ∈ m'.frames d :=
      mem_frames.mpr ⟨v,user,by rw [pte]; exact isPresent_mkPte ..,by rw [pte]; exact PTE_ADDR_mkPte (by decide)⟩
    rw [rest.grows.frame owned reg isFrame,zero]
  have newRest (u : Nat) (low : u < USERPAGES) (behind : v < u) (new : New m' m'' d u) : New m m'' d u := by
    obtain ⟨absent,x,isFree,pte,zero⟩ := new
    rw [others u (lt_of_user low) (by omega)] at absent
    exact ⟨absent,x,grows.free x isFree,pte,zero⟩
  refine ⟨⟨grows.trans rest.grows,fun u low out => ?_,fun u low high => ?_⟩,newV,newRest⟩
  · rw [rest.outside u low (by omega),others u low (by omega)]
  · by_cases isV : u = v
    · subst isV
      rcases here with same | new
      · exact .inl (atV.trans same)
      · exact .inr (newV new)
    · rcases rest.inside u (by omega) high with same | new
      · exact .inl (same.trans (others u (lt_of_user (by omega)) isV))
      · exact .inr (newRest u (by omega) (by omega) new)

/-- Page tables are lost where a call of `kalloc` in `walkpgdir` may return 0. -/
def Lossy (env : Env) (All R : Multiset Nat) (d : Nat) (gap : Prop) (mapped : Nat → Prop) : Prop :=
  env.may true = true ∧ Scarce env All R d gap mapped

theorem not_lossy {gap : Prop} {mapped : Nat → Prop} (assured : env.may true = false) : ¬Lossy env All R d gap mapped := by
  rintro ⟨may,-⟩
  rw [assured] at may
  cases may

/-- There are so many pages that no call of `kalloc` fails while a directory has no more than `n` frames. -/
structure Plenty (env : Env) (All R : Multiset Nat) (n : Nat) : Prop where
  given : ∀ c, env.refuse c = false
  many : R.card + n + 1026 < All.card

theorem Plenty.not_fails {n : Nat} (plenty : Plenty env All R n) (divided : Divided All m R) : ¬Fails env m := by
  rintro (refused | empty)
  · rw [plenty.given] at refused
    cases refused
  · have many := plenty.many
    rw [Divided,empty,coe_nil,zero_add] at divided
    rw [divided] at many
    omega

theorem Plenty.not_scarce {n : Nat} {gap : Prop} {mapped : Nat → Prop} (plenty : Plenty env All R n) (few : ∀ u < USERPAGES, mapped u → u < n) :
    ¬Scarce env All R d gap mapped := by
  rintro ⟨m₀,R₀,fails,owned₀,card,_,there⟩
  rcases fails with refused | empty
  · rw [plenty.given] at refused
    cases refused
  · have many := plenty.many
    have tables : (m₀.tables d).card ≤ NPDENTRIES := by
      rw [Mem.tables]
      exact card_taken_le fun i low high => absurd low (by omega)
    have frames : (m₀.frames d).card ≤ n := by
      rw [Mem.frames]
      refine card_taken_le fun u user beyond => own_of_absent ?_
      by_contra present
      have := few u user (there u user (by simpa using present))
      omega
    rw [← (owned₀ : _ = All),empty,Mem.tree] at many
    simp only [coe_nil,zero_add,card_add,card_cons,NPDENTRIES] at many tables
    omega

theorem Plenty.room {n : Nat} {gap : Prop} {mapped : Nat → Prop} (plenty : Plenty env All R n) (divided : Divided All m R)
    (few : ∀ u < USERPAGES, mapped u → u < n) : ¬(Fails env m ∨ ∃ d, Scarce env All R d gap mapped) := by
  rintro (fails | ⟨d,scarce⟩)
  · exact plenty.not_fails divided fails
  · exact plenty.not_scarce few scarce

def Wanted (m : Mem) (d sz u : Nat) : Prop := isPresent (m.pte d u) = true ∨ u < pages sz

theorem wp_allocuvm_from {Q : Bool → Mem → Prop} {newsz : Nat} (reg : Region All) (low : newsz < KERNBASE) (turns : Nat)
    (enough : newsz ≤ PGSIZE * (v + turns)) (start : v ≤ pages newsz) (owned : Owned All m d R)
    (done : ∀ b m' k leak, (b = true → k = pages newsz) → v ≤ k → k ≤ pages newsz → Owned All m' d (leak + R) → Extends m m' d v k →
      (¬Lossy env All R d (Gapless m d) (Wanted m d newsz) → leak = 0 ∧ ∀ u, v ≤ u → u < k → New m m' d u) →
      (b = false → env.may false = true ∧ Scarce env All R d (Gapless m d) (Wanted m d newsz)) →
      Grows (fun i => ∃ u, v ≤ u ∧ u < k ∧ i = u / NPTENTRIES) m m' d → Q b m')
    (remap : ∀ u, v ≤ u → u < pages newsz → isPresent (m.pte d u) = true → E (.panic "remap"))
    (sleep : ∀ table, Scarce env All R d (Gapless m d) (Wanted m d newsz) → env.may table = false → E .sleep) :
    Wp (checked ok env) E (allocuvm_from d newsz turns (PGSIZE * v)) Q m := by
  induction turns generalizing m v R with
  | zero =>
    have beyond : pages newsz ≤ v := by
      by_contra more
      have := lt_pages.mp (Nat.lt_of_not_le more)
      simp only [PGSIZE] at *
      omega
    refine done true m v 0 (fun _ => by omega) (le_refl v) start (by rwa [zero_add]) (.refl rfl rfl d v)
      (fun _ => ⟨rfl,fun u after before => by omega⟩) (fun isFalse => by cases isFalse) (.refl rfl rfl)
  | succ turns ih =>
    rw [allocuvm_from]
    by_cases more : PGSIZE * v < newsz
    swap
    · rw [if_neg more]
      have beyond : pages newsz ≤ v := by
        by_contra more'
        exact more (lt_pages.mp (Nat.lt_of_not_le more'))
      exact done true m v 0 (fun _ => by omega) (le_refl v) start (by rwa [zero_add]) (.refl rfl rfl d v)
        (fun _ => ⟨rfl,fun u after before => by omega⟩) (fun isFalse => by cases isFalse) (.refl rfl rfl)
    have here : v < pages newsz := lt_pages.mpr more
    have bound : pages newsz ≤ USERPAGES := pages_le (by omega)
    have user : v < USERPAGES := by omega
    have nextPage : wrap (PGSIZE * v + PGSIZE) = PGSIZE * (v + 1) := by
      simp only [wrap,KERNBASE,PGSIZE] at *
      omega
    rw [if_pos more,wp_bind]
    have short₀ (fails : Fails env m) : Scarce env All R d (Gapless m d) (Wanted m d newsz) :=
      scarce_here fails owned fun u _ present => .inl present
    refine wp_kalloc (fun r rest list => ?_) (fun fails may => ?_) fun fails => sleep false (short₀ fails)
    swap
    · exact done false _ v 0 (fun isFalse => by cases isFalse) (le_refl v) start (by rw [zero_add]; exact owned.counted _)
        (.refl (by rfl) (by rfl) d v) (fun _ => ⟨rfl,fun u after before => by omega⟩)
        (fun _ => ⟨may,short₀ fails⟩) (.refl (by rfl) (by rfl))
    show Wp _ _ (perform (.memset r 0) >>= _) _ _
    rw [wp_bind,wp_memset,wp_bind]
    -- the page tables are those of this page and of the pages behind it
    have more {m₂ m' : Mem} {k : Nat} (first : Grows (· = v / NPTENTRIES) m m₂ d) (after : v + 1 ≤ k)
        (rest : Grows (fun i => ∃ u, v + 1 ≤ u ∧ u < k ∧ i = u / NPTENTRIES) m₂ m' d) : Grows (fun i => ∃ u, v ≤ u ∧ u < k ∧ i = u / NPTENTRIES) m m' d :=
      (first.mono fun i isTable => ⟨v,le_refl v,by omega,isTable⟩).trans (rest.mono (by rintro i ⟨u,low',high,isTable⟩; exact ⟨u,by omega,high,isTable⟩))
    have short₁ (scarce : Scarce env All R d (Gapless m d) fun u => isPresent (m.pte d u) = true) :
        Scarce env All R d (Gapless m d) (Wanted m d newsz) := scarce.mono id fun _ _ present => .inl present
    refine wp_map_fresh reg owned list user (by decide) (fun m₂ owned₂ absent here' others new grown => ?_) (fun m₂ owned₂ ptes grown scarce may => ?_)
      (remap v (le_refl v) here) fun scarce => sleep true (short₁ scarce)
    · rw [nextPage]
      have grows := grown.mono fun i => userTable user
      have gapless := grows.gapless fun i => not_userTable
      have newV : New m m₂ d v := ⟨absent,r,by rw [list]; exact List.mem_cons_self ..,here',new⟩
      have mapped (u : Nat) (low' : u < USERPAGES) (present : Wanted m₂ d newsz u) : Wanted m d newsz u := by
        by_cases isV : u = v
        · exact .inr (by omega)
        · rwa [Wanted,others u (lt_of_user low') isV] at present
      refine ih (by simp only [PGSIZE] at *; omega) here owned₂ (fun b m' k leak full after before owned' extends' lossless short behind => ?_)
        (fun u after inside present => ?_) fun table scarce => sleep table (scarce.mono gapless mapped)
      · obtain ⟨whole,keepV,keepRest⟩ := Extends.cons grows owned₂ reg user others (.inr newV) extends' after (by omega)
        refine done b m' k leak full (by omega) before owned' whole (fun lossless' => ?_) (fun failed => ?_) (more grown after behind)
        · obtain ⟨none,all⟩ := lossless fun lossy => lossless' ⟨lossy.1,lossy.2.mono gapless mapped⟩
          refine ⟨none,fun u low' high => ?_⟩
          by_cases isV : u = v
          · subst isV
            exact keepV newV
          · exact keepRest u (by omega) (by omega) (all u (by omega) high)
        · exact ⟨(short failed).1,(short failed).2.mono gapless mapped⟩
      · rw [others u (lt_of_user (by omega)) (by omega)] at present
        exact remap u (by omega) inside present
    · -- the page is lost
      rw [nextPage]
      refine ih (by simp only [PGSIZE] at *; omega) here owned₂ (fun b m' k leak full after before owned' extends' _ short behind => ?_)
        (fun u after inside present => ?_) fun table _ => sleep table (short₁ scarce)
      · obtain ⟨whole,-,-⟩ := Extends.cons (grown.mono fun i => userTable user) owned₂ reg user (fun u low' _ => ptes u low')
          (.inl (ptes v (lt_of_user user))) extends' after (by omega)
        refine done b m' k (leak + {r}) full (by omega) before ?_ whole (fun lossless => absurd ⟨may,short₁ scarce⟩ lossless)
          (fun failed => ⟨(short failed).1,short₁ scarce⟩) (more grown after behind)
        rwa [add_assoc,singleton_add]
      · rw [ptes u (lt_of_user (by omega))] at present
        exact remap u (by omega) inside present

/-- `allocuvm`: it refuses a size, or the pages up to the new size are there, or it is out of memory. -/
theorem wp_allocuvm {Q : Nat → Mem → Prop} {oldsz newsz : Nat} (reg : Region All) (owned : Owned All m d R)
    (refused : KERNBASE ≤ newsz → Q 0 m) (smaller : newsz < oldsz → Q oldsz m)
    (done : ∀ m' leak, oldsz ≤ newsz → newsz < KERNBASE → Owned All m' d (leak + R) → Extends m m' d (pages oldsz) (pages newsz) →
      (¬Lossy env All R d (Gapless m d) (Wanted m d newsz) →
        leak = 0 ∧ ∀ u, pages oldsz ≤ u → u < pages newsz → New m m' d u) →
      Grows (fun i => ∃ u, pages oldsz ≤ u ∧ u < pages newsz ∧ i = u / NPTENTRIES) m m' d → Q newsz m')
    (fail : ∀ m' leak, Owned All m' d (leak + R) → (∀ x ∈ R, m'.page x = m.page x) →
      (¬Lossy env All R d (Gapless m d) (Wanted m d newsz) → leak = 0) → env.may false = true →
      Scarce env All R d (Gapless m d) (Wanted m d newsz) → Q 0 m')
    (remap : newsz < KERNBASE → ∀ u, pages oldsz ≤ u → u < pages newsz → isPresent (m.pte d u) = true → E (.panic "remap"))
    (sleep : ∀ table, Scarce env All R d (Gapless m d) (Wanted m d newsz) → env.may table = false → E .sleep) :
    Wp (checked ok env) E (allocuvm d oldsz newsz) Q m := by
  rw [allocuvm]
  by_cases high : newsz ≥ KERNBASE
  · rw [if_pos high]
    exact refused high
  by_cases less : newsz < oldsz
  · rw [if_neg high,if_pos less]
    exact smaller less
  rw [if_neg high,if_neg less,wp_bind,PGROUNDUP_eq (by omega)]
  refine wp_allocuvm_from reg (by omega) _ (by simp only [PGSIZE]; omega) (pages_mono (by omega)) owned
    (fun b m₁ k leak full after before owned₁ extends₁ lossless short grows => ?_) (remap (by omega)) sleep
  cases b with
  | true =>
    rw [full rfl] at extends₁ lossless grows
    exact done m₁ leak (by omega) (by omega) owned₁ extends₁ lossless grows
  | false =>
    show Wp _ _ (deallocuvm d newsz oldsz >>= fun _ => pure 0) _ _
    rw [wp_bind]
    have kept (x : Nat) (inRest : x ∈ R) := extends₁.grows.rest owned reg inRest
    refine wp_deallocuvm reg (by omega) owned₁ (fun _ => ?_) fun m₂ _ owned₂ shrinks _ _ => ?_
    · exact fail m₁ leak owned₁ kept (fun lossless' => (lossless lossless').1) (short rfl).1 (short rfl).2
    · refine fail m₂ leak owned₂ (fun x inRest => ?_) (fun lossless' => (lossless lossless').1) (short rfl).1 (short rfl).2
      rw [shrinks.rest owned₁ reg (mem_add.mpr (.inr inRest)),kept x inRest]

def Belongs (m : Mem) (p : Nat) (R : Multiset Nat) : Prop := ∀ x ∈ m.tree p, x ∈ R

/-- The pages of the rest are as they were, and so are the entries of the directory, its frames and who has its pages. -/
theorem Belongs.kept {p : Nat} (belongs : Belongs m p R) (kept : ∀ x ∈ R, m'.page x = m.page x) :
    Belongs m' p R ∧ (∀ u < 2 ^ 20, m'.pte p u = m.pte p u) ∧ m'.tree p = m.tree p := by
  have dir : m'.page p = m.page p := kept p (belongs p (mem_cons_self ..))
  have tables (x : Nat) (isTable : x ∈ m.tables p) : m'.page x = m.page x :=
    kept x (belongs x (mem_cons_of_mem (mem_add.mpr (.inl isTable))))
  have tree := tree_congr dir tables
  refine ⟨fun x inTree => belongs x (tree ▸ inTree),fun u inside => pte_congr dir tables inside,tree⟩

theorem Belongs.frame {p : Nat} (belongs : Belongs m p R) (user : v < USERPAGES) (present : isPresent (m.pte p v) = true) :
    PTE_ADDR (m.pte p v) ∈ R :=
  belongs _ (mem_cons_of_mem (mem_add.mpr (.inr (mem_frames.mpr ⟨v,user,present,rfl⟩))))

structure Copied (m m' : Mem) (p d u : Nat) : Prop where
  source : isPresent (m.pte p u) = true
  present : isPresent (m'.pte d u) = true
  flags : PTE_FLAGS (m'.pte d u) = PTE_FLAGS (m.pte p u)
  bytes : m'.page (PTE_ADDR (m'.pte d u)) = m.page (PTE_ADDR (m.pte p u))

theorem Copied.congr {p u : Nat} {m₁ m₂ : Mem} (copied : Copied m m' p d u) (parent : m.pte p u = m₁.pte p u)
    (source : m.page (PTE_ADDR (m.pte p u)) = m₁.page (PTE_ADDR (m.pte p u))) (child : m₂.pte d u = m'.pte d u)
    (target : m₂.page (PTE_ADDR (m'.pte d u)) = m'.page (PTE_ADDR (m'.pte d u))) : Copied m₁ m₂ p d u := by
  obtain ⟨present,present',flags,bytes⟩ := copied
  refine ⟨parent ▸ present,child.symm ▸ present',?_,?_⟩
  · rw [child,flags,parent]
  · rw [child,target,bytes,source,parent]

theorem PTE_FLAGS_mkPte {w : Nat} (present : isPresent w = true) : PTE_FLAGS (mkPte x (PTE_FLAGS w)) = PTE_FLAGS w := by
  simp only [PTE_FLAGS,mkPte,isPresent,PGSIZE,decide_eq_true_iff] at *
  omega

theorem wp_copyuvm_from {Q : Bool → Mem → Prop} {p sz : Nat} (reg : Region All) (low : sz < KERNBASE) (turns : Nat)
    (enough : sz ≤ PGSIZE * (v + turns)) (owned : Owned All m d R)
    (done : ∀ b m' leak, Owned All m' d (leak + R) → Grows (fun _ => True) m m' d → (env.may true = false → leak = 0) →
      (b = false → ∃ table, env.may table = true) →
      (b = true → (∀ u < 2 ^ 20, ¬(v ≤ u ∧ u < pages sz) → m'.pte d u = m.pte d u) ∧
        (Belongs m p R → ∀ u, v ≤ u → u < pages sz → Copied m m' p d u)) → Q b m')
    (absent : ∀ u message, v ≤ u → u < pages sz → (Belongs m p R → isPresent (m.pte p u) = false) → E (.panic message))
    (remap : ∀ u, v ≤ u → u < pages sz → isPresent (m.pte d u) = true → E (.panic "remap"))
    (sleep : ∀ table, Scarce env All R d False (Wanted m d sz) → env.may table = false → E .sleep) :
    Wp (checked ok env) E (copyuvm_from p d sz turns (PGSIZE * v)) Q m := by
  induction turns generalizing m v with
  | zero =>
    have last : pages sz ≤ v := Nat.le_of_not_lt fun more => absurd (lt_pages.mp more) (by simp only [PGSIZE] at *; omega)
    exact done true m 0 (by rwa [zero_add]) (.refl rfl rfl) (fun _ => rfl) (by simp)
      fun _ => ⟨fun _ _ _ => rfl,fun _ u after before => absurd before (by omega)⟩
  | succ turns ih =>
    rw [copyuvm_from]
    by_cases more : PGSIZE * v < sz
    swap
    · rw [if_neg more]
      have last : pages sz ≤ v := Nat.le_of_not_lt fun more' => more (lt_pages.mp more')
      exact done true m 0 (by rwa [zero_add]) (.refl rfl rfl) (fun _ => rfl) (by simp)
        fun _ => ⟨fun _ _ _ => rfl,fun _ u after before => absurd before (by omega)⟩
    have here : v < pages sz := lt_pages.mpr more
    have bound : pages sz ≤ USERPAGES := pages_le low.le
    have user : v < USERPAGES := by omega
    have inside := lt_of_user user
    have number : PGSIZE * v / PGSIZE = v := by
      simp only [PGSIZE]
      omega
    have nextPage : wrap (PGSIZE * v + PGSIZE) = PGSIZE * (v + 1) := by
      simp only [wrap,KERNBASE,PGSIZE] at *
      omega
    rw [if_pos more,wp_bind,wp_walk (by simp only [KERNBASE] at low; omega),number]
    by_cases table : isPresent (m.pde p (v / NPTENTRIES)) = true
    swap
    · rw [if_neg table]
      refine wp_panic.mpr (absent v _ (le_refl v) here fun _ => ?_)
      rw [pte_of_absent (by simpa using table)]
      rfl
    rw [if_pos table]
    show Wp _ _ (perform (.entry (pteAt m p v).1 (pteAt m p v).2) >>= _) _ _
    rw [wp_bind,wp_entry,word_pteAt table]
    by_cases missing : isPresent (m.pte p v) = false
    · rw [if_pos missing]
      exact wp_panic.mpr (absent v _ (le_refl v) here fun _ => missing)
    rw [if_neg missing,wp_bind]
    rw [Bool.not_eq_false] at missing
    have short₀ (fails : Fails env m) : Scarce env All R d False (Wanted m d sz) :=
      ⟨m,R,fails,owned,Nat.le_succ _,False.elim,fun u _ present => .inl present⟩
    refine wp_kalloc (fun r rest list => ?_) (fun fails may => ?_) fun fails => sleep false (short₀ fails)
    swap
    · exact done false _ 0 (by rw [zero_add]; exact owned.counted _) (.refl rfl rfl) (fun _ => rfl) (fun _ => ⟨false,may⟩) (by simp)
    show Wp _ _ (perform (.memmove r (PTE_ADDR (m.pte p v))) >>= _) _ _
    rw [wp_bind,wp_memmove,wp_bind]
    have short₁ (scarce : Scarce env All R d (Gapless m d) fun u => isPresent (m.pte d u) = true) : Scarce env All R d False (Wanted m d sz) :=
      scarce.mono False.elim fun _ _ present => .inl present
    have small : PTE_FLAGS (m.pte p v) < PGSIZE := Nat.mod_lt _ (by decide)
    refine wp_map_fresh reg owned list user small (fun m₂ owned₂ _ entry others new grown => ?_) (fun m₂ owned₂ _ grown _ may => ?_)
      (remap v (le_refl v) here) fun scarce => sleep true (short₁ scarce)
    swap
    · -- `mem` is lost
      rw [if_pos (by decide)]
      refine done false _ {r} (by rwa [singleton_add]) (grown.mono fun _ _ => trivial) (fun never => ?_) (fun _ => ⟨true,may⟩) (by simp)
      rw [may] at never
      cases never
    rw [if_neg (by decide),nextPage]
    have grows : Grows (fun _ => True) m m₂ d := grown.mono fun _ _ => trivial
    have kept (x : Nat) (inRest : x ∈ R) : m₂.page x = m.page x := grows.rest owned reg inRest
    have address : PTE_ADDR (m₂.pte d v) = r := by rw [entry,PTE_ADDR_mkPte small]
    have copy : Copied m m₂ p d v := by
      refine ⟨missing,by rw [entry]; exact isPresent_mkPte ..,by rw [entry,PTE_FLAGS_mkPte missing],?_⟩
      rw [address,new]
    have mapped (u : Nat) (low' : u < USERPAGES) (present : Wanted m₂ d sz u) : Wanted m d sz u := by
      by_cases isV : u = v
      · exact .inr (by omega)
      · rwa [Wanted,others u (lt_of_user low') isV] at present
    refine ih (by simp only [PGSIZE] at *; omega) owned₂ (fun b m' leak owned' grows' lossless failed all => ?_)
      (fun u message after before gone => absent u message (by omega) before fun belongs => ?_)
      (fun u after before present => remap u (by omega) before (by rwa [others u (lt_of_user (by omega)) (by omega)] at present))
      fun table scarce => sleep table (scarce.mono id mapped)
    · refine done b m' leak owned' (grows.trans grows') lossless failed fun success => ?_
      obtain ⟨outside,copies⟩ := all success
      refine ⟨fun u low' out => ?_,fun belongs u after before => ?_⟩
      · rw [outside u low' (by omega),others u low' (by omega)]
      · obtain ⟨belongs₂,parent,-⟩ := belongs.kept kept
        by_cases isV : u = v
        · subst isV
          have isFrame : PTE_ADDR (m₂.pte d u) ∈ m₂.frames d := mem_frames.mpr ⟨u,user,copy.present,rfl⟩
          exact copy.congr rfl rfl (outside u inside (by omega)) (grows'.frame owned₂ reg isFrame)
        · have later := copies belongs₂ u (by omega) before
          have samePte := parent u (lt_of_user (by omega))
          exact later.congr samePte (kept _ (belongs₂.frame (by omega) later.source)) rfl rfl
    · obtain ⟨belongs₂,parent,-⟩ := belongs.kept kept
      rw [← parent u (lt_of_user (by omega))]
      exact gone belongs₂

/-- `copyuvm`: a new directory with copies of the parent's pages, or none. -/
theorem wp_copyuvm {Q : Option Nat → Mem → Prop} {p sz : Nat} (reg : Region All) (low : sz < KERNBASE) (divided : Divided All m R)
    (done : ∀ m' d leak, Owned All m' d (leak + R) → (∀ x ∈ R, m'.page x = m.page x) → (env.may true = false → leak = 0) →
      (∀ u < USERPAGES, pages sz ≤ u → m'.pte d u = 0) → (Belongs m p R → ∀ u < pages sz, Copied m m' p d u) → Q (some d) m')
    (fail : ∀ m' leak, Divided All m' (leak + R) → (∀ x ∈ R, m'.page x = m.page x) → (env.may true = false → leak = 0) →
      (∃ table, env.may table = true) → Q none m')
    (absent : ∀ u message, u < pages sz → (Belongs m p R → isPresent (m.pte p u) = false) → E (.panic message))
    (sleep : ∀ table, (Fails env m ∨ ∃ d, Scarce env All R d False fun u => u < pages sz) → env.may table = false → E .sleep) :
    Wp (checked ok env) E (copyuvm p sz) Q m := by
  have kept (m₁ : Mem) (untouched : Untouched m m₁) (x : Nat) (inRest : x ∈ R) : m₁.page x = m.page x :=
    untouched.2 x (divided.notFree reg inRest)
  rw [copyuvm,wp_bind]
  refine wp_setupkvm_fresh reg divided (fun m₁ d _ owned₁ _ user untouched _ _ => ?_)
    (fun m' leak divided' lossless untouched _ may => fail m' leak divided' (kept m' untouched) lossless may)
    fun table short => sleep table (short.imp id fun ⟨d,scarce⟩ => ⟨d,scarce.mono False.elim fun _ _ never => never.elim⟩)
  have empty (u : Nat) (low' : u < USERPAGES) : ¬isPresent (m₁.pte d u) = true := by
    rw [user u low']
    nofun
  have kept₁ := kept m₁ untouched
  have bound : pages sz ≤ USERPAGES := pages_le low.le
  show Wp _ _ (copyuvm_from p d sz (sz / PGSIZE + 1) (PGSIZE * 0) >>= _) _ _
  rw [wp_bind]
  refine wp_copyuvm_from reg low _ (by simp only [PGSIZE]; omega) owned₁ (fun b m₂ leak owned₂ grows lossless failed all => ?_)
    (fun u message _ before gone => absent u message before fun belongs => ?_)
    (fun u _ before present => absurd present (empty u (by omega)))
    fun table scarce => sleep table (.inr ⟨d,scarce.mono id fun u low' mapped => mapped.resolve_left (empty u low')⟩)
  · have kept₂ (x : Nat) (inRest : x ∈ R) : m₂.page x = m.page x := (grows.rest owned₁ reg inRest).trans (kept₁ x inRest)
    cases b with
    | true =>
      obtain ⟨outside,copies⟩ := all rfl
      refine done m₂ d leak owned₂ kept₂ lossless (fun u low' beyond => ?_) fun belongs u before => ?_
      · rw [outside u (lt_of_user low') (by omega),user u low']
      · obtain ⟨belongs₁,parent,-⟩ := belongs.kept kept₁
        have copied := copies belongs₁ u (Nat.zero_le u) before
        exact copied.congr (parent u (lt_of_user (by omega))) (kept₁ _ (belongs₁.frame (by omega) copied.source)) rfl rfl
    | false =>
      show Wp _ _ (freevm d >>= fun _ => pure none) _ _
      rw [wp_bind]
      refine wp_freevm reg owned₂ fun m₃ divided₃ kept₃ => fail m₃ leak divided₃ (fun x inRest => ?_) lossless (failed rfl)
      rw [kept₃ x (mem_add.mpr (.inr inRest)),kept₂ x inRest]
  · obtain ⟨belongs₁,parent,-⟩ := belongs.kept kept₁
    rw [← parent u (lt_of_user (by omega))]
    exact gone belongs₁

end Osce.Vm
