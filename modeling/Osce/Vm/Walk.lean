import Osce.Vm.Tables

/-!
What `walkpgdir`, `mappages` and `setupkvm` do, with every call of `kalloc` that may return 0. The directory
grows by pages that were free: `Grows` says which pages and which entries of the directory may have changed.
-/
namespace Osce.Vm
open Osce.Lib Prog Multiset

/-- The stores of `loaduvm` that are allowed; the other operations all are. -/
def stores (ok : Nat → Nat → Nat → Mem → Prop) : VmOp → Mem → Prop
  | .load pgdir va x _, m => ok pgdir va x m
  | _, _ => True

/-- The machine, stopped at a store of `loaduvm` that is not allowed. -/
noncomputable def checked (ok : Nat → Nat → Nat → Mem → Prop) (env : Env) : Handler VmSig Mem := guarded (stores ok) (handle env)

theorem checked_true (env : Env) : checked (fun _ _ _ _ => True) env = handle env := by
  funext op m
  cases op <;> exact guarded_of_ok trivial

variable {ok : Nat → Nat → Nat → Mem → Prop} {env : Env} {E : Stop → Prop} {All R : Multiset Nat} {m m' m'' : Mem} {d v x : Nat}

theorem wp_guarded {allowed : VmOp → Mem → Prop} {op : VmOp} {Q : op.Ans → Mem → Prop} (here : allowed op m) :
    Wp (guarded allowed (handle env)) E (perform op) Q m ↔
      match handle env op m with
      | .ok (a,m') => Q a m'
      | .error e => E e := by
  rw [perform,Prog.perform,wp_call,guarded_of_ok here]
  cases handle env op m with
  | ok r => exact Iff.rfl
  | error e => exact Iff.rfl

theorem wp_op {op : VmOp} {Q : op.Ans → Mem → Prop} (allowed : stores ok op m) : Wp (checked ok env) E (perform op) Q m ↔
    match handle env op m with
    | .ok (a,m') => Q a m'
    | .error e => E e := wp_guarded allowed

section
variable {Q : Unit → Mem → Prop} {i w : Nat} {b : UInt8}

theorem wp_entry {Q : Nat → Mem → Prop} : Wp (checked ok env) E (perform (.entry x i)) Q m ↔ Q ((m.page x).word i) m :=
  wp_op trivial

theorem wp_setEntry :
    Wp (checked ok env) E (perform (.setEntry x i w)) Q m ↔ Q () (m.setPage x ((m.page x).setWord i w)) := wp_op trivial

theorem wp_memset : Wp (checked ok env) E (perform (.memset x b)) Q m ↔ Q () (m.setPage x (filled b)) := wp_op trivial

theorem wp_memmove {y : Nat} : Wp (checked ok env) E (perform (.memmove x y)) Q m ↔ Q () (m.setPage x (m.page y)) := wp_op trivial

theorem wp_panic {α : Type} {Q : α → Mem → Prop} {message : String} :
    Wp (checked ok env) E (panic message) Q m ↔ E (.panic message) := by
  rw [panic,wp_call,checked,guarded_of_ok trivial]
  rfl

theorem wp_kfree (low : firstPage ≤ x) (high : x < lastPage) :
    Wp (checked ok env) E (perform (.kfree x)) Q m ↔ Q () ⟨(m.setPage x (filled 1)).page,x :: m.freelist,m.calls⟩ := by
  rw [wp_op (by exact trivial),handle,if_neg (by omega)]
  rfl

end

def Fails (env : Env) (m : Mem) : Prop := env.refuse m.calls = true ∨ m.freelist = []

theorem wp_kalloc {table : Bool} {Q : Option Nat → Mem → Prop}
    (found : ∀ r rest, m.freelist = r :: rest → Q (some r) ⟨m.page,rest,m.calls + 1⟩)
    (none : Fails env m → env.may table = true → Q none ⟨m.page,m.freelist,m.calls + 1⟩)
    (sleep : Fails env m → env.may table = false → E .sleep) : Wp (checked ok env) E (perform (.kalloc table)) Q m := by
  rw [wp_op (by exact trivial)]
  by_cases fails : Fails env m
  · have empty : (if env.refuse m.calls then [] else m.freelist) = [] := by
      rcases fails with refused | empty
      · rw [if_pos refused]
      · rw [empty,ite_self]
    rw [handle,empty]
    cases may : env.may table with
    | true => exact none fails may
    | false => exact sleep fails may
  · rw [Fails,not_or] at fails
    rw [handle,if_neg fails.1]
    cases list : m.freelist with
    | nil => exact absurd list fails.2
    | cons r rest => exact found r rest list

@[simp] theorem setPage_same (m : Mem) (x : Nat) (pg : Page) : (m.setPage x pg).page x = pg := Function.update_self ..

theorem setPage_other (m : Mem) {x y : Nat} (pg : Page) (other : y ≠ x) : (m.setPage x pg).page y = m.page y :=
  Function.update_of_ne other ..

theorem filled_zero : filled 0 = Bytes.zero PGSIZE := rfl

/-- The directory has grown by pages that were free, in certain entries, and nothing else has changed. -/
structure Grows (at' : Nat → Prop) (m m' : Mem) (d : Nat) : Prop where
  free : ∀ x ∈ m'.freelist, x ∈ m.freelist
  tables : ∀ x ∈ m'.tables d, x ∈ m.tables d ∨ x ∈ m.freelist
  kept : ∀ x, x ∉ m.freelist → x ≠ d → x ∉ m.tables d → m'.page x = m.page x
  others : ∀ i, ¬at' i → m'.pde d i = m.pde d i

section
variable {at' wider : Nat → Prop}

theorem Grows.refl (free : m'.freelist = m.freelist) (page : m'.page = m.page) : Grows at' m m' d := by
  refine ⟨fun x inList => free ▸ inList,fun x isTable => .inl ?_,fun x _ _ _ => by rw [page],fun i _ => ?_⟩
  · rwa [tables_congr (m := m) (by rw [page])] at isTable
  · rw [Mem.pde,Mem.pde,page]

theorem Grows.trans (first : Grows at' m m' d) (second : Grows at' m' m'' d) : Grows at' m m'' d := by
  refine ⟨fun x inList => first.free x (second.free x inList),fun x isTable => ?_,fun x notFree notDir notTable => ?_,
    fun i other => (second.others i other).trans (first.others i other)⟩
  · rcases second.tables x isTable with old | fresh
    · exact first.tables x old
    · exact .inr (first.free x fresh)
  · have notTable' : x ∉ m'.tables d := fun isTable => (first.tables x isTable).elim notTable notFree
    rw [second.kept x (fun inList => notFree (first.free x inList)) notDir notTable',first.kept x notFree notDir notTable]

theorem Grows.mono (grows : Grows at' m m' d) (weaker : ∀ i, at' i → wider i) : Grows wider m m' d :=
  ⟨grows.free,grows.tables,grows.kept,fun i other => grows.others i fun inside => other (weaker i inside)⟩

theorem Grows.rest (grows : Grows at' m m' d) (owned : Owned All m d R) (reg : Region All) (inRest : x ∈ R) :
    m'.page x = m.page x := by
  have apart := owned.apart reg
  refine grows.kept x (apart.restFree x inRest) ?_ (apart.restTable x inRest)
  rintro rfl
  exact apart.restDir inRest

theorem Grows.frame (grows : Grows at' m m' d) (owned : Owned All m d R) (reg : Region All) (isFrame : x ∈ m.frames d) :
    m'.page x = m.page x := by
  have apart := owned.apart reg
  refine grows.kept x (fun isFree => apart.freeFrame x isFree isFrame) ?_ fun isTable => apart.tableFrame x isTable isFrame
  rintro rfl
  exact apart.dirFrame isFrame

end

/-- The first page of the devices, and the entries of a directory between the memory and them. -/
def DEVPAGE : Nat := DEVSPACE / PGSIZE
def inGap (i : Nat) : Prop := (KERNBASE + PHYSTOP) / PGSIZE / NPTENTRIES ≤ i ∧ i < DEVPAGE / NPTENTRIES

def Gapless (m : Mem) (d : Nat) : Prop := ∀ i, inGap i → m.pde d i = 0

theorem Grows.gapless {at' : Nat → Prop} (grows : Grows at' m m' d) (outside : ∀ i, inGap i → ¬at' i) (gapless : Gapless m d) :
    Gapless m' d := fun i between => (grows.others i (outside i between)).trans (gapless i between)

/-- `kalloc` has found no page although the directory had frames only for certain pages, and no tables in the gap. -/
def Scarce (env : Env) (All R : Multiset Nat) (d : Nat) (gap : Prop) (mapped : Nat → Prop) : Prop :=
  ∃ m R', Fails env m ∧ Owned All m d R' ∧ R'.card ≤ R.card + 1 ∧ (gap → Gapless m d) ∧
    ∀ v < USERPAGES, isPresent (m.pte d v) = true → mapped v

theorem Scarce.mono {gap gap' : Prop} {mapped wider : Nat → Prop} (scarce : Scarce env All R d gap mapped) (weakerGap : gap' → gap)
    (weaker : ∀ v < USERPAGES, mapped v → wider v) : Scarce env All R d gap' wider := by
  obtain ⟨m,R',fails,owned,card,gapless,there⟩ := scarce
  exact ⟨m,R',fails,owned,card,fun holds => gapless (weakerGap holds),fun v user present => weaker v user (there v user present)⟩

theorem scarce_here {mapped : Nat → Prop} (fails : Fails env m) (owned : Owned All m d R)
    (there : ∀ v < USERPAGES, isPresent (m.pte d v) = true → mapped v) : Scarce env All R d (Gapless m d) mapped :=
  ⟨m,R,fails,owned,Nat.le_succ _,id,there⟩

theorem PDX_eq {va : Nat} (small : va < 2 ^ 32) : PDX va = va / PGSIZE / NPTENTRIES := by
  simp only [PDX,PGSIZE,NPTENTRIES,NPDENTRIES]
  omega

def pteAt (m : Mem) (d v : Nat) : Nat × Nat := (PTE_ADDR (m.pde d (v / NPTENTRIES)),v % NPTENTRIES)

theorem word_pteAt (present : isPresent (m.pde d (v / NPTENTRIES)) = true) :
    (m.page (pteAt m d v).1).word (pteAt m d v).2 = m.pte d v := by
  rw [Mem.pte,if_pos present,pteAt]

theorem pte_of_absent (absent : isPresent (m.pde d (v / NPTENTRIES)) = false) : m.pte d v = 0 := by
  rw [Mem.pte,absent]
  rfl

theorem wp_walk {va : Nat} {Q : Option (Nat × Nat) → Mem → Prop} (small : va < 2 ^ 32) :
    Wp (checked ok env) E (walkpgdir d va false) Q m ↔
      Q (if isPresent (m.pde d (va / PGSIZE / NPTENTRIES)) then some (pteAt m d (va / PGSIZE)) else none) m := by
  rw [walkpgdir,wp_bind,wp_entry,PDX_eq small]
  show Wp _ _ (if isPresent (m.pde d (va / PGSIZE / NPTENTRIES)) then _ else _) _ _ ↔ _
  split
  · exact Iff.rfl
  · exact Iff.rfl

theorem wp_walk_alloc {va : Nat} {Q : Option (Nat × Nat) → Mem → Prop} (supplied : Supplied m d) (small : va < 2 ^ 32)
    (done : ∀ m', Supplied m' d → Spent m m' d → (∀ u < 2 ^ 20, m'.pte d u = m.pte d u) →
      isPresent (m'.pde d (va / PGSIZE / NPTENTRIES)) = true → Grows (· = va / PGSIZE / NPTENTRIES) m m' d →
      Q (some (pteAt m' d (va / PGSIZE))) m')
    (fail : isPresent (m.pde d (va / PGSIZE / NPTENTRIES)) = false → Fails env m → env.may true = true →
      Q none ⟨m.page,m.freelist,m.calls + 1⟩)
    (sleep : isPresent (m.pde d (va / PGSIZE / NPTENTRIES)) = false → Fails env m → env.may true = false → E .sleep) :
    Wp (checked ok env) E (walkpgdir d va true) Q m := by
  rw [walkpgdir,wp_bind,wp_entry,PDX_eq small]
  show Wp _ _ (if isPresent (m.pde d (va / PGSIZE / NPTENTRIES)) then _ else _) _ _
  by_cases present : isPresent (m.pde d (va / PGSIZE / NPTENTRIES)) = true
  · rw [if_pos present]
    exact done m supplied rfl (fun _ _ => rfl) present (.refl rfl rfl)
  · rw [if_neg present]
    rw [Bool.not_eq_true] at present
    show Wp _ _ (perform (.kalloc true) >>= _) _ _
    rw [wp_bind]
    refine wp_kalloc (fun r rest list => ?_) (fail present) (sleep present)
    -- the page is cleared, and the entry made to refer to it
    obtain ⟨tabled,once,freeDir,freeTable,page⟩ := supplied
    rw [list] at once freeDir freeTable page
    have notDir : r ≠ d := fun isDir => freeDir (isDir ▸ List.mem_cons_self ..)
    have notTable := freeTable r (List.mem_cons_self ..)
    have inside : va / PGSIZE / NPTENTRIES < NPDENTRIES := index_lt (by simp only [PGSIZE]; omega)
    have flags : PTE_W + PTE_U < PGSIZE := by decide
    show Wp _ _ (perform (.memset r 0) >>= _) _ _
    rw [wp_bind,wp_memset,wp_bind,wp_setEntry]
    have zero := setPage_same ⟨m.page,rest,m.calls + 1⟩ r (filled 0)
    have same₁ (y : Nat) := setPage_other ⟨m.page,rest,m.calls + 1⟩ (x := r) (y := y) (filled 0)
    have free₁ : (Mem.setPage ⟨m.page,rest,m.calls + 1⟩ r (filled 0)).freelist = rest := rfl
    generalize Mem.setPage ⟨m.page,rest,m.calls + 1⟩ r (filled 0) = m₁ at *
    have dir : m₁.page d = m.page d := same₁ d notDir.symm
    have tables₁ := tables_congr dir
    have tabled₁ : Tabled m₁ d := by
      constructor <;> rw [tables₁]
      · exact tabled.tables
      · exact tabled.dir
    have new := setPage_same m₁ d ((m₁.page d).setWord (va / PGSIZE / NPTENTRIES) (mkPte r (PTE_W + PTE_U)))
    have same₂ (y : Nat) := setPage_other m₁ (x := d) (y := y) ((m₁.page d).setWord (va / PGSIZE / NPTENTRIES) (mkPte r (PTE_W + PTE_U)))
    have free₂ : (m₁.setPage d ((m₁.page d).setWord (va / PGSIZE / NPTENTRIES) (mkPte r (PTE_W + PTE_U)))).freelist = rest := free₁
    generalize m₁.setPage d _ = m₂ at *
    obtain ⟨tabled₂,ptes,pdes,tables₂⟩ := tabled₁.attach inside (by rw [pde_congr dir]; exact present) (zero.trans filled_zero) notDir
      (by rwa [tables₁]) (page r (List.mem_cons_self ..)) flags new same₂
    rw [tables₁] at tables₂
    have pde := pdes (va / PGSIZE / NPTENTRIES)
    rw [if_pos rfl] at pde
    have old {x : Nat} (inRest : x ∈ m₂.freelist) : x ∈ r :: rest := List.mem_cons_of_mem _ (free₂ ▸ inRest)
    have spent : Spent m m₂ d := by rw [Spent,tables₂,free₂,list,← cons_coe,cons_add,add_cons]
    have supplied₂ : Supplied m₂ d := by
      refine ⟨tabled₂,by rw [free₂]; exact (List.nodup_cons.mp once).2,fun isFree => freeDir (old isFree),fun x isFree isTable => ?_,
        fun x isFree => page x (old isFree)⟩
      rw [tables₂,mem_cons] at isTable
      rcases isTable with rfl | before
      · exact (List.nodup_cons.mp once).1 (free₂ ▸ isFree)
      · exact freeTable x (old isFree) before
    have final := done m₂ supplied₂ spent (fun u low => (ptes u low).trans (pte_congr dir (fun x isTable => same₁ x fun isR => notTable (isR ▸ isTable)) low))
      (by rw [pde]; exact isPresent_mkPte ..) ⟨fun x isFree => by rw [list]; exact old isFree,fun x isTable => ?_,fun x notFree other _ => ?_,
      fun j other => by rw [pdes j,if_neg other,pde_congr dir]⟩
    · rw [pteAt,pde,PTE_ADDR_mkPte flags] at final
      exact final
    · rw [tables₂,mem_cons] at isTable
      rcases isTable with rfl | before
      · exact .inr (by rw [list]; exact List.mem_cons_self ..)
      · exact .inl before
    · rw [same₂ x other,same₁]
      rintro rfl
      exact notFree (by rw [list]; exact List.mem_cons_self ..)

theorem wp_mappages_step {Q : Int → Mem → Prop} {perm left a pa : Nat} (supplied : Supplied m d)
    (small : a < 2 ^ 32) (page : pa < 2 ^ 20) (flags : perm < PGSIZE)
    (next : ∀ m₁ m₂, Supplied m₁ d → Spent m m₁ d → m₂.freelist = m₁.freelist → m₂.page d = m₁.page d →
      isPresent (m₁.pde d (a / PGSIZE / NPTENTRIES)) = true → isPresent (m.pte d (a / PGSIZE)) = false → (∀ u < 2 ^ 20, m₁.pte d u = m.pte d u) →
      (∀ u < 2 ^ 20, m₂.pte d u = if u = a / PGSIZE then mkPte pa perm else m₁.pte d u) →
      Grows (· = a / PGSIZE / NPTENTRIES) m m₂ d →
      Wp (checked ok env) E (mappages_from d perm left (wrap (a + PGSIZE)) (wrap ((pa + 1) * PGSIZE) / PGSIZE)) Q m₂)
    (fail : isPresent (m.pde d (a / PGSIZE / NPTENTRIES)) = false → Fails env m → env.may true = true → Q (-1) ⟨m.page,m.freelist,m.calls + 1⟩)
    (remap : isPresent (m.pte d (a / PGSIZE)) = true → E (.panic "remap"))
    (sleep : isPresent (m.pde d (a / PGSIZE / NPTENTRIES)) = false → Fails env m → env.may true = false → E .sleep) :
    Wp (checked ok env) E (mappages_from d perm (left + 1) a pa) Q m := by
  rw [mappages_from,wp_bind]
  refine wp_walk_alloc supplied small (fun m₁ supplied₁ spent ptes present grows => ?_) fail sleep
  have inside : a / PGSIZE < 2 ^ 20 := by
    simp only [PGSIZE]
    omega
  show Wp _ _ (perform (.entry (pteAt m₁ d (a / PGSIZE)).1 (pteAt m₁ d (a / PGSIZE)).2) >>= _) _ _
  rw [wp_bind,wp_entry,word_pteAt present,ptes _ inside]
  by_cases mapped : isPresent (m.pte d (a / PGSIZE)) = true
  · rw [if_pos mapped,wp_panic]
    exact remap mapped
  · rw [if_neg mapped,wp_bind,wp_setEntry]
    rw [Bool.not_eq_true] at mapped
    have new := setPage_same m₁ (pteAt m₁ d (a / PGSIZE)).1
      ((m₁.page (pteAt m₁ d (a / PGSIZE)).1).setWord (pteAt m₁ d (a / PGSIZE)).2 (mkPte pa perm))
    obtain ⟨dir,set⟩ := supplied₁.tabled.setPte inside present (mkPte_lt page flags) new fun y other => setPage_other _ _ other
    have isTable : (pteAt m₁ d (a / PGSIZE)).1 ∈ m₁.tables d := mem_tables.mpr ⟨_,index_lt inside,present,rfl⟩
    refine next m₁ _ supplied₁ spent rfl dir present mapped ptes set (grows.trans ⟨fun x inList => inList,fun x there => .inl ?_,
      fun x _ _ notTable => setPage_other _ _ ?_,fun i _ => pde_congr dir i⟩)
    · exact mem_of_le (le_of_eq (tables_congr dir)) there
    · rintro rfl
      exact notTable isTable

theorem wp_mappages_page {Q : Int → Mem → Prop} {flags : Nat} (reg : Region All) (owned : Owned All m d (x ::ₘ R))
    (user : v < USERPAGES) (small : flags < PGSIZE)
    (done : ∀ m', Owned All m' d R → isPresent (m.pte d v) = false →
      (∀ u < 2 ^ 20, m'.pte d u = if u = v then mkPte x flags else m.pte d u) → Grows (· = v / NPTENTRIES) m m' d → Q 0 m')
    (fail : Fails env m → env.may true = true → Q (-1) ⟨m.page,m.freelist,m.calls + 1⟩)
    (remap : isPresent (m.pte d v) = true → E (.panic "remap"))
    (sleep : Fails env m → env.may true = false → E .sleep) :
    Wp (checked ok env) E (mappages d (PGSIZE * v) PGSIZE x flags) Q m := by
  have low := lt_of_user user
  have page := page_lt (owned.range reg (.inl (mem_add.mpr (.inr (mem_cons_self x R))))).2
  have start : PGROUNDDOWN (PGSIZE * v) = PGSIZE * v := by
    simp only [PGROUNDDOWN,PGSIZE]
    omega
  have turns : wrap (PGROUNDDOWN (wrap (PGSIZE * v + PGSIZE + (2 ^ 32 - 1))) + (2 ^ 32 - PGSIZE * v)) / PGSIZE = 0 := by
    simp only [PGROUNDDOWN,wrap,PGSIZE]
    omega
  have number : PGSIZE * v / PGSIZE = v := by
    simp only [PGSIZE]
    omega
  have vSmall : PGSIZE * v < 2 ^ 32 := by
    simp only [PGSIZE]
    omega
  rw [mappages]
  simp only [start,turns]
  refine wp_mappages_step (owned.supplied reg) vSmall page small (fun m₁ m₂ _ spent free dir _ absent ptes₁ ptes₂ grows => ?_) (fun _ => fail)
    (by rwa [number]) fun _ => sleep
  rw [number] at absent ptes₂ grows
  refine done m₂ ((owned.spent spent fun u low => ptes₁ u (lt_of_user low)).map user ?_ (own_mkPte small) free dir ptes₂) absent (fun u inside => ?_) grows
  · rwa [ptes₁ v low]
  · rw [ptes₂ u inside]
    split
    · rfl
    · exact ptes₁ u inside

/-- The entries for `n` pages from `v` on refer to those from `p` on, and the others are as they were. -/
def Maps (m m' : Mem) (d v p perm n : Nat) : Prop :=
  ∀ u < 2 ^ 20, m'.pte d u = if v ≤ u ∧ u < v + n then mkPte ((p + (u - v)) % 2 ^ 20) perm else m.pte d u

def Tables (v n i : Nat) : Prop := ∃ u, v ≤ u ∧ u < v + n ∧ i = u / NPTENTRIES

/-- The loop of `mappages`: it ends when all pages are mapped, or where `kalloc` has no page for a table. -/
theorem wp_mappages_by {perm : Nat} {Q : Int → Mem → Prop} (flags : perm < PGSIZE) (n : Nat) {v p : Nat} (virt : v + n ≤ 2 ^ 20)
    (supplied : Supplied m d) (done : ∀ m', Supplied m' d → Spent m m' d → Maps m m' d v p perm n → Grows (Tables v n) m m' d → Q 0 m')
    (stop : ∀ m' k, k < n → Spent m m' d → Maps m m' d v p perm k → Grows (Tables v n) m m' d →
      isPresent (m'.pde d ((v + k) / NPTENTRIES)) = false → Fails env m' →
      (env.may true = true → Q (-1) ⟨m'.page,m'.freelist,m'.calls + 1⟩) ∧ (env.may true = false → E .sleep))
    (remap : ∀ u, v ≤ u → u < v + n → isPresent (m.pte d u) = true → E (.panic "remap")) :
    Wp (checked ok env) E (mappages_from d perm n (PGSIZE * v % 2 ^ 32) (p % 2 ^ 20)) Q m := by
  induction n generalizing m v p with
  | zero =>
    refine done m supplied rfl (fun u _ => ?_) (.refl rfl rfl)
    rw [if_neg (by omega)]
  | succ n ih =>
    have number : PGSIZE * v % 2 ^ 32 / PGSIZE = v := by
      simp only [PGSIZE]
      omega
    have nextVirt : wrap (PGSIZE * v % 2 ^ 32 + PGSIZE) = PGSIZE * (v + 1) % 2 ^ 32 := by
      simp only [wrap,PGSIZE]
      omega
    have nextPhys : wrap ((p % 2 ^ 20 + 1) * PGSIZE) / PGSIZE = (p + 1) % 2 ^ 20 := by
      simp only [wrap,PGSIZE]
      omega
    have here (fails : Fails env m) (absent : isPresent (m.pde d (PGSIZE * v % 2 ^ 32 / PGSIZE / NPTENTRIES)) = false) :=
      stop m 0 (by omega) rfl (fun u _ => by rw [if_neg (by omega)]) (.refl rfl rfl) (by rwa [number] at absent) fails
    refine wp_mappages_step supplied (Nat.mod_lt _ (by decide)) (Nat.mod_lt _ (by decide)) flags
      (fun m₁ m₂ supplied₁ spent free dir _ _ ptes₁ ptes₂ grows => ?_) (fun absent fails => (here fails absent).1)
      (fun present => remap v (le_refl v) (by omega) (by rwa [number] at present)) fun absent fails => (here fails absent).2
    rw [number] at ptes₂ grows
    have ptes (u : Nat) (low : u < 2 ^ 20) : m₂.pte d u = if u = v then mkPte (p % 2 ^ 20) perm else m.pte d u := by
      rw [ptes₂ u low]
      split
      · rfl
      · exact ptes₁ u low
    have spent₂ : Spent m m₂ d := by rwa [Spent,free,tables_congr dir]
    have first : Grows (Tables v (n + 1)) m m₂ d := grows.mono fun i isV => ⟨v,le_refl v,by omega,isV⟩
    have further {m' : Mem} (grows' : Grows (Tables (v + 1) n) m₂ m' d) : Grows (Tables v (n + 1)) m m' d :=
      first.trans (grows'.mono (by rintro i ⟨u,low,high,isU⟩; exact ⟨u,by omega,by omega,isU⟩))
    have longer {m' : Mem} {k : Nat} (maps : Maps m₂ m' d (v + 1) (p + 1) perm k) : Maps m m' d v p perm (k + 1) := by
      intro u low
      rw [maps u low,ptes u low]
      by_cases isV : u = v
      · subst isV
        rw [if_neg (by omega),if_pos rfl,if_pos (by omega),Nat.sub_self,Nat.add_zero]
      · rw [if_neg isV]
        by_cases inside : v + 1 ≤ u ∧ u < v + 1 + k
        · rw [if_pos inside,if_pos (by omega),show p + 1 + (u - (v + 1)) = p + (u - v) by omega]
        · rw [if_neg inside,if_neg (by omega)]
    rw [nextVirt,nextPhys]
    refine ih (by omega) (supplied₁.congr free dir) (fun m' supplied' spent' maps grows' => ?_) (fun m' k less spent' maps grows' absent => ?_)
      fun u low high present => remap u (by omega) (by omega) ?_
    · exact done m' supplied' (spent'.trans spent₂) (longer maps) (further grows')
    · rw [Nat.add_assoc,Nat.add_comm 1 k] at absent
      exact stop m' (k + 1) (by omega) (spent'.trans spent₂) (longer maps) (further grows') absent
    · rwa [ptes u (by omega),if_neg (by omega)] at present

theorem wp_mappages_from {perm : Nat} {Q : Int → Mem → Prop} (reg : Region All) (flags : perm < PGSIZE) (n : Nat) {v p : Nat}
    (kernel : USERPAGES ≤ v) (virt : v + n ≤ 2 ^ 20) (phys : p + n ≤ 2 ^ 20)
    (outside : ∀ u, v ≤ u → u < v + n → ¬inGap (u / NPTENTRIES)) (owned : Owned All m d R)
    (done : ∀ m', Owned All m' d R →
      (∀ u < 2 ^ 20, m'.pte d u = if v ≤ u ∧ u < v + n then mkPte (p + (u - v)) perm else m.pte d u) →
      Grows (Tables v n) m m' d → Q 0 m')
    (fail : ∀ m', Owned All m' d R → Grows (Tables v n) m m' d →
      Scarce env All R d (Gapless m d) (fun u => isPresent (m.pte d u) = true) → env.may true = true → Q (-1) m')
    (remap : ∀ u, v ≤ u → u < v + n → isPresent (m.pte d u) = true → E (.panic "remap"))
    (sleep : Scarce env All R d (Gapless m d) (fun u => isPresent (m.pte d u) = true) → env.may true = false → E .sleep) :
    Wp (checked ok env) E (mappages_from d perm n (PGSIZE * v % 2 ^ 32) (p % 2 ^ 20)) Q m := by
  have users {m' : Mem} {k : Nat} (maps : Maps m m' d v p perm k) (u : Nat) (low : u < USERPAGES) : m'.pte d u = m.pte d u := by
    rw [maps u (lt_of_user low),if_neg (by omega)]
  refine wp_mappages_by flags n virt (owned.supplied reg) (fun m' _ spent maps grows => ?_) (fun m' k _ spent maps grows _ fails => ?_) remap
  · refine done m' (owned.spent spent (users maps)) (fun u low => ?_) grows
    rw [maps u low]
    split
    · rw [Nat.mod_eq_of_lt (by omega)]
    · rfl
  · have owned' := owned.spent spent (users maps)
    have scarce : Scarce env All R d (Gapless m d) fun u => isPresent (m.pte d u) = true := by
      refine (scarce_here fails owned' fun u _ present => present).mono (grows.gapless fun i between there => ?_) fun u low present => ?_
      · obtain ⟨u,from',before,rfl⟩ := there
        exact outside u from' before between
      · rwa [users maps u low] at present
    exact ⟨fail _ (owned'.counted _) (grows.trans (.refl rfl rfl)) scarce,sleep scarce⟩

def Divided (All : Multiset Nat) (m : Mem) (R : Multiset Nat) : Prop := (m.freelist : Multiset Nat) + R = All

theorem Owned.divided (owned : Owned All m d R) : Divided All m (m.tree d + R) := owned

theorem Divided.notFree (divided : Divided All m R) (reg : Region All) (inRest : x ∈ R) : x ∉ m.freelist := by
  have once := reg.once
  rw [← (divided : _ = All)] at once
  exact fun isFree => disjoint_left.mp (nodup_add.mp once).2.2 (mem_coe.mpr isFree) inRest

/-- A page of the free list that is cleared is an empty directory. -/
theorem Divided.directory (divided : Divided All m R) {rest : List Nat} (list : m.freelist = d :: rest)
    (zero : m'.page d = Bytes.zero PGSIZE) (free : m'.freelist = rest) :
    Owned All m' d R ∧ (∀ u, m'.pte d u = 0) ∧ (∀ i, m'.pde d i = 0) := by
  have pdes (i : Nat) : m'.pde d i = 0 := by rw [Mem.pde,zero,Bytes.word_zero]
  have ptes (u : Nat) : m'.pte d u = 0 := pte_of_absent (by rw [pdes]; rfl)
  have tables : m'.tables d = 0 := by
    rw [Mem.tables]
    exact taken_empty fun i _ => by rw [pdes]; rfl
  have frames : m'.frames d = 0 := by
    rw [Mem.frames]
    exact taken_empty fun u _ => by rw [ptes]; rfl
  refine ⟨?_,ptes,pdes⟩
  rw [Divided,list,← cons_coe,cons_add] at divided
  rw [Owned,← divided,free,Mem.tree,tables,frames,cons_add,add_cons,add_zero,zero_add]

/-- What the rest of the kernel's part of a directory is used for here. -/
structure Kernel (m : Mem) (d : Nat) : Prop where
  devices : ∀ u, DEVPAGE ≤ u → u < 2 ^ 20 → m.pte d u = mkPte u PTE_W
  gap : Gapless m d

section
variable {Q : Option Nat → Mem → Prop}

def inKernel (i : Nat) : Prop := USERPAGES / NPTENTRIES ≤ i ∧ ¬inGap i

theorem wp_setupkvm_step {k : Kmap} {rest : List Kmap} (reg : Region All) (owned : Owned All m d R) {v p n : Nat}
    (virt : k.virt = PGSIZE * v) (phys : k.phys_start = PGSIZE * p)
    (size : wrap (k.phys_end + (2 ^ 32 - k.phys_start)) = PGSIZE * (n + 1)) (flags : k.perm < PGSIZE) (kernel : USERPAGES ≤ v)
    (virtEnd : v + (n + 1) ≤ 2 ^ 20) (physEnd : p + (n + 1) ≤ 2 ^ 20) (outside : ∀ u, v ≤ u → u < v + (n + 1) → ¬inGap (u / NPTENTRIES))
    (absent : ∀ u, v ≤ u → u < v + (n + 1) → m.pte d u = 0)
    (next : ∀ m', Owned All m' d R →
      (∀ u < 2 ^ 20, m'.pte d u = if v ≤ u ∧ u < v + (n + 1) then mkPte (p + (u - v)) k.perm else m.pte d u) →
      Grows inKernel m m' d → Wp (checked ok env) E (setupkvm_from d rest) Q m')
    (fail : ∀ m', Owned All m' d R → Grows inKernel m m' d →
      Scarce env All R d (Gapless m d) (fun u => isPresent (m.pte d u) = true) → env.may true = true → Q none m')
    (sleep : Scarce env All R d (Gapless m d) (fun u => isPresent (m.pte d u) = true) → env.may true = false → E .sleep) :
    Wp (checked ok env) E (setupkvm_from d (k :: rest)) Q m := by
  have start : PGROUNDDOWN (PGSIZE * v) = PGSIZE * v % 2 ^ 32 := by
    simp only [PGROUNDDOWN,PGSIZE]
    omega
  have turns : wrap (PGROUNDDOWN (wrap (PGSIZE * v + PGSIZE * (n + 1) + (2 ^ 32 - 1))) + (2 ^ 32 - PGSIZE * v % 2 ^ 32)) / PGSIZE = n := by
    simp only [PGROUNDDOWN,wrap,PGSIZE]
    omega
  have first : PGSIZE * p / PGSIZE = p % 2 ^ 20 := by
    simp only [PGSIZE]
    omega
  have inRange (i : Nat) (inside : ∃ u, v ≤ u ∧ u < v + (n + 1) ∧ i = u / NPTENTRIES) : inKernel i := by
    obtain ⟨u,low,high,rfl⟩ := inside
    exact ⟨Nat.div_le_div_right (by omega),outside u low high⟩
  rw [setupkvm_from,wp_bind,mappages,virt,size,phys,start,turns,first]
  refine wp_mappages_from reg flags (n + 1) kernel virtEnd physEnd outside owned (fun m' owned' ptes grows => ?_)
    (fun m' owned' grows scarce may => ?_) (fun u low high present => ?_) sleep
  · rw [if_neg (by decide)]
    exact next m' owned' ptes (grows.mono inRange)
  · rw [if_pos (by decide)]
    exact fail m' owned' (grows.mono inRange) scarce may
  · rw [absent u low high] at present
    cases present

def Untouched (m m' : Mem) : Prop := (∀ x ∈ m'.freelist, x ∈ m.freelist) ∧ ∀ x, x ∉ m.freelist → m'.page x = m.page x

theorem wp_setupkvm_fresh (reg : Region All) (divided : Divided All m R)
    (done : ∀ m' d rest, Owned All m' d R → Kernel m' d → (∀ u < USERPAGES, m'.pte d u = 0) → Untouched m m' →
      m.freelist = d :: rest → (∀ i < USERPAGES / NPTENTRIES, m'.pde d i = 0) → Q (some d) m')
    (fail : ∀ m' leak, Divided All m' (leak + R) → (env.may true = false → leak = 0) → Untouched m m' →
      Fails env m ∨ (∃ d, Scarce env All R d True fun _ => False) → (∃ table, env.may table = true) → Q none m')
    (sleep : ∀ table, Fails env m ∨ (∃ d, Scarce env All R d True fun _ => False) → env.may table = false → E .sleep) :
    Wp (checked ok env) E setupkvm Q m := by
  rw [setupkvm,wp_bind]
  refine wp_kalloc (fun d rest list => ?_) (fun fails may => ?_) fun fails => sleep false (.inl fails)
  swap
  · exact fail _ 0 (by rw [zero_add]; exact divided) (fun _ => rfl) ⟨fun x inList => inList,fun _ _ => rfl⟩ (.inl fails) ⟨false,may⟩
  show Wp _ _ (perform (.memset d 0) >>= _) _ _
  rw [wp_bind,wp_memset,if_neg (by decide)]
  generalize start : Mem.setPage ⟨m.page,rest,m.calls + 1⟩ d (filled 0) = m₀
  have zero : m₀.page d = Bytes.zero PGSIZE := by
    rw [← start,setPage_same,filled_zero]
  obtain ⟨owned₀,ptes₀,pdes₀⟩ := divided.directory list zero (by rw [← start]; rfl)
  have fresh (m' : Mem) (grows : Grows inKernel m₀ m' d) : Untouched m m' := by
    have free (x : Nat) (inList : x ∈ m₀.freelist) : x ∈ m.freelist := by
      rw [← start] at inList
      rw [list]
      exact List.mem_cons_of_mem _ inList
    refine ⟨fun x inList => free x (grows.free x inList),fun x notFree => ?_⟩
    have other : x ≠ d := by
      rintro rfl
      exact notFree (by rw [list]; exact List.mem_cons_self ..)
    rw [grows.kept x (fun inList => notFree (free x inList)) other ?_,← start,setPage_other _ _ other]
    intro isTable
    obtain ⟨i,-,present,-⟩ := mem_tables.mp isTable
    rw [pdes₀] at present
    cases present
  have empty (m₁ : Mem) (grows : Grows inKernel m₀ m₁ d) (user : ∀ u < USERPAGES, m₁.pte d u = 0)
      (scarce : Scarce env All R d (Gapless m₁ d) fun u => isPresent (m₁.pte d u) = true) :
      Fails env m ∨ ∃ d, Scarce env All R d True fun _ => False := by
    refine .inr ⟨d,scarce.mono (fun _ => grows.gapless (fun i between inside => inside.2 between) fun i _ => pdes₀ i) fun u low present => ?_⟩
    rw [user u low] at present
    cases present
  have stuck (m' m₁ : Mem) (owned' : Owned All m' d R) (whole : Grows inKernel m₀ m' d) (grows : Grows inKernel m₀ m₁ d)
      (user : ∀ u < USERPAGES, m₁.pte d u = 0) (scarce : Scarce env All R d (Gapless m₁ d) fun u => isPresent (m₁.pte d u) = true)
      (may : env.may true = true) : Q none m' :=
    fail m' (m'.tree d) owned'.divided (fun never => by rw [may] at never; cases never) (fresh m' whole) (empty m₁ grows user scarce) ⟨true,may⟩
  have user₀ (u : Nat) (_ : u < USERPAGES) := ptes₀ u
  -- the four ranges are apart from each other and from the gap
  refine wp_setupkvm_step (v := 0x80000) (p := 0) (n := 0xFF) reg owned₀ rfl rfl rfl (by decide) (by decide) (by decide) (by decide)
    (fun u low high => by simp only [inGap,KERNBASE,PHYSTOP,PGSIZE,NPTENTRIES]; omega) (fun u _ _ => ptes₀ u)
    (fun m₁ owned₁ ptes₁ grows₁ => ?_) (fun m' owned' grows scarce may => stuck m' m₀ owned' grows (.refl rfl rfl) user₀ scarce may)
    fun scarce => sleep true (empty m₀ (.refl rfl rfl) user₀ scarce)
  have user₁ (u : Nat) (low : u < USERPAGES) : m₁.pte d u = 0 := by
    rw [ptes₁ u (lt_of_user low),if_neg (by simp only [USERPAGES,KERNBASE,PGSIZE] at low; omega),ptes₀]
  refine wp_setupkvm_step (v := 0x80100) (p := 0x100) (n := 8) reg owned₁ rfl rfl rfl (by decide) (by decide) (by decide) (by decide)
    (fun u low high => by simp only [inGap,KERNBASE,PHYSTOP,PGSIZE,NPTENTRIES]; omega)
    (fun u low high => by rw [ptes₁ u (by omega),if_neg (by omega),ptes₀])
    (fun m₂ owned₂ ptes₂ grows₂ => ?_)
    (fun m' owned' grows scarce may => stuck m' m₁ owned' (grows₁.trans grows) grows₁ user₁ scarce may)
    fun scarce => sleep true (empty m₁ grows₁ user₁ scarce)
  have grown₂ := grows₁.trans grows₂
  have user₂ (u : Nat) (low : u < USERPAGES) : m₂.pte d u = 0 := by
    rw [ptes₂ u (lt_of_user low),if_neg (by simp only [USERPAGES,KERNBASE,PGSIZE] at low; omega),user₁ u low]
  refine wp_setupkvm_step (v := 0x80109) (p := 0x109) (n := 0xDEF6) reg owned₂ rfl rfl rfl (by decide) (by decide) (by decide) (by decide)
    (fun u low high => by simp only [inGap,KERNBASE,PHYSTOP,PGSIZE,NPTENTRIES]; omega)
    (fun u low high => by rw [ptes₂ u (by omega),if_neg (by omega),ptes₁ u (by omega),if_neg (by omega),ptes₀])
    (fun m₃ owned₃ ptes₃ grows₃ => ?_)
    (fun m' owned' grows scarce may => stuck m' m₂ owned' (grown₂.trans grows) grown₂ user₂ scarce may)
    fun scarce => sleep true (empty m₂ grown₂ user₂ scarce)
  have grown₃ := grown₂.trans grows₃
  have user₃ (u : Nat) (low : u < USERPAGES) : m₃.pte d u = 0 := by
    rw [ptes₃ u (lt_of_user low),if_neg (by simp only [USERPAGES,KERNBASE,PGSIZE] at low; omega),user₂ u low]
  refine wp_setupkvm_step (v := 0xFE000) (p := 0xFE000) (n := 0x1FFF) reg owned₃ rfl rfl rfl (by decide) (by decide) (by decide) (by decide)
    (fun u low high => by simp only [inGap,DEVPAGE,DEVSPACE,PGSIZE,NPTENTRIES]; omega)
    (fun u low high => by
      rw [ptes₃ u (by omega),if_neg (by omega),ptes₂ u (by omega),if_neg (by omega),ptes₁ u (by omega),if_neg (by omega),ptes₀])
    (fun m₄ owned₄ ptes₄ grows₄ => ?_)
    (fun m' owned' grows scarce may => stuck m' m₃ owned' (grown₃.trans grows) grown₃ user₃ scarce may)
    fun scarce => sleep true (empty m₃ grown₃ user₃ scarce)
  have grown := grown₃.trans grows₄
  refine done m₄ d rest owned₄ ⟨fun u low high => ?_,fun i between => ?_⟩ (fun u low => ?_) (fresh m₄ grown) list fun i low => ?_
  · simp only [DEVPAGE,DEVSPACE,PGSIZE] at low
    rw [ptes₄ u high,if_pos (by omega),show 0xFE000 + (u - 0xFE000) = u by omega]
  · rw [grown.others i fun inside => inside.2 between,pdes₀]
  · rw [ptes₄ u (lt_of_user low),if_neg (by simp only [USERPAGES,KERNBASE,PGSIZE] at low; omega),user₃ u low]
  · rw [grown.others i fun inside => Nat.not_le_of_lt low inside.1,pdes₀]

theorem wp_setupkvm (reg : Region All) (divided : Divided All m R)
    (done : ∀ m' d rest, Owned All m' d R → Kernel m' d → (∀ u < USERPAGES, m'.pte d u = 0) → Untouched m m' →
      m.freelist = d :: rest → Q (some d) m')
    (fail : ∀ m' leak, Divided All m' (leak + R) → (env.may true = false → leak = 0) → Untouched m m' →
      Fails env m ∨ (∃ d, Scarce env All R d True fun _ => False) → Q none m')
    (sleep : ∀ table, Fails env m ∨ (∃ d, Scarce env All R d True fun _ => False) → env.may table = false → E .sleep) :
    Wp (checked ok env) E setupkvm Q m :=
  wp_setupkvm_fresh reg divided (fun m' d rest owned kernel user untouched list _ => done m' d rest owned kernel user untouched list)
    (fun m' leak divided' lossless untouched fails _ => fail m' leak divided' lossless untouched fails) sleep

end

end Osce.Vm
