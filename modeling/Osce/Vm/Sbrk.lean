import Osce.Vm.Space

/-!
`sbrk`: whatever the signed 32-bit amount, `growproc` leaves an address space with exactly the pages that the
size says, as long as `kalloc` finds a page. `growproc` takes the size 0 for an error, and a size below 0 for a
large one, so the amounts that take a process to 0 or below are the ones for which this fails.
-/
namespace Osce.Vm
open Osce.Lib Prog

def uint (n : Int) : Nat := (n % 2 ^ 32).toNat

/-- `switchuvm`, as far as it can fail. -/
def switchuvm (pgdir : Nat) : VmProg Unit := if pgdir = 0 then panic "switchuvm: no pgdir" else pure ()

/-- The end of `growproc`: the size is stored and the address space loaded again. -/
def growproc_commit (pgdir sz : Nat) : VmProg (Int × Nat) := do
  switchuvm pgdir
  pure (0,sz)

/-- Grow current process's memory by n bytes. Return 0 on success, -1 on failure, and the size that the process
    has then. -/
def growproc (pgdir sz : Nat) (n : Int) : VmProg (Int × Nat) := do
  if n > 0 then do
    let sz' ← allocuvm pgdir sz (uint (sz + n))
    if sz' = 0 then pure (-1,sz) else growproc_commit pgdir sz'
  else if n < 0 then do
    let sz' ← deallocuvm pgdir sz (uint (sz + n))
    if sz' = 0 then pure (-1,sz) else growproc_commit pgdir sz'
  else growproc_commit pgdir sz

/-- `sys_sbrk`: the old size, or -1. -/
def sys_sbrk (pgdir sz : Nat) (n : Int) : VmProg (Int × Nat) := do
  let (r,sz') ← growproc pgdir sz n
  if r < 0 then pure (-1,sz') else pure ((sz : Int),sz')

variable {All R : Multiset Nat} {m m' : Mem} {d sz sz' : Nat} {n : Int}

/-- The user pages that are present are those of [0, PGROUNDUP(sz)). -/
def Mapped (m : Mem) (d sz : Nat) : Prop := ∀ u < USERPAGES, isPresent (m.pte d u) = true ↔ u < pages sz

theorem Region.card_le (reg : Region All) : All.card ≤ lastPage := by
  rw [← Multiset.toFinset_card_of_nodup reg.once]
  refine (Finset.card_le_card (t := Finset.range lastPage) fun x member => ?_).trans (Finset.card_range lastPage).le
  exact Finset.mem_range.mpr (reg.range x (Multiset.mem_toFinset.mp member)).2

/-- There is not enough physical memory for an address space without a gap that reaches the kernel. -/
theorem Mapped.low (mapped : Mapped m d sz) (owned : Owned All m d R) (reg : Region All) : sz < KERNBASE := by
  by_contra high
  have all : USERPAGES ≤ pages sz := by
    simp only [USERPAGES,pages,KERNBASE,PGSIZE] at *
    omega
  have full : (m.frames d).card = USERPAGES := by
    rw [Mem.frames]
    refine card_taken_full fun u user => ?_
    rw [own_of_present ((mapped u user).mpr (by omega))]
    exact Option.some_ne_none _
  have total : (m.frames d).card ≤ All.card := by
    rw [← (owned : _ = All),Mem.tree]
    simp only [Multiset.card_add,Multiset.card_cons]
    omega
  have bound := reg.card_le
  rw [full] at total
  simp only [USERPAGES,lastPage,KERNBASE,PHYSTOP,PGSIZE] at total bound
  omega

theorem Extends.mapped (extends' : Extends m m' d (pages sz) (pages sz')) (mapped : Mapped m d sz) (larger : sz ≤ sz')
    (all : ∀ u, pages sz ≤ u → u < pages sz' → New m m' d u) : Mapped m' d sz' := by
  intro u user
  have more := pages_mono larger
  by_cases new : pages sz ≤ u ∧ u < pages sz'
  · obtain ⟨_,x,_,pte,_⟩ := all u new.1 new.2
    rw [pte]
    exact ⟨fun _ => new.2,fun _ => isPresent_mkPte ..⟩
  · rw [extends'.outside u (lt_of_user user) new,mapped u user]
    omega

def never : Env := ⟨fun _ => false,fun _ => false⟩

/-- What may have become of the size and the memory: the new size with its pages, the old ones as they were and the
    new ones cleared; or no change at all. -/
def Resized (m m' : Mem) (d sz : Nat) (n : Int) (r : Int × Nat) : Prop :=
  (r.1 = 0 ∧ (r.2 : Int) = sz + n ∧ r.2 < KERNBASE ∧ Mapped m' d r.2 ∧
    (∀ u, u < pages sz → u < pages r.2 → m'.pte d u = m.pte d u ∧ m'.page (PTE_ADDR (m.pte d u)) = m.page (PTE_ADDR (m.pte d u))) ∧
    ∀ u, pages sz ≤ u → u < pages r.2 → m'.page (PTE_ADDR (m'.pte d u)) = Bytes.zero PGSIZE) ∨
  (r.1 = -1 ∧ r.2 = sz ∧ m' = m)

/-- The amounts that do not take a process to the size 0 or below. -/
def Leaves (sz : Nat) (n : Int) : Prop := 0 ≤ n ∨ 0 < (sz : Int) + n ∨ sz = 0

theorem uint_of_nonneg {k : Int} (low : 0 ≤ k) (high : k < 2 ^ 32) : (uint k : Int) = k := by
  rw [uint]
  omega

section
variable {env : Env} {E : Stop → Prop} {Q : Int × Nat → Mem → Prop}

theorem Owned.dir_ne_zero (owned : Owned All m d R) (reg : Region All) : d ≠ 0 := by
  have inRange := (owned.range reg (.inl (Multiset.mem_add.mpr (.inl (Multiset.mem_cons_self ..))))).1
  simp only [firstPage,V2P,kend,KERNBASE,PGSIZE] at inRange
  omega

theorem wp_growproc_commit {ok : Nat → Nat → Nat → Mem → Prop} (reg : Region All) (owned : Owned All m d R) :
    Wp (checked ok env) E (growproc_commit d sz) Q m ↔ Q (0,sz) m := by
  rw [growproc_commit,wp_bind,switchuvm,if_neg (owned.dir_ne_zero reg)]
  exact Iff.rfl

end

theorem growproc_resizes (reg : Region All) (owned : Owned All m d R) (mapped : Mapped m d sz) (word : -2 ^ 31 ≤ n ∧ n < 2 ^ 31)
    (leaves : Leaves sz n) :
    Wp (handle never) (· = .sleep) (growproc d sz n) (fun r m' => Resized m m' d sz n r ∧ Owned All m' d R) m := by
  rw [← checked_true]
  have low := mapped.low owned reg
  have bound : sz < 2 ^ 31 := low
  have inside (u : Nat) (old : u < pages sz) : u < USERPAGES := old.trans_le (pages_le low.le)
  have isFrame (u : Nat) (old : u < pages sz) : PTE_ADDR (m.pte d u) ∈ m.frames d :=
    mem_frames.mpr ⟨u,inside u old,(mapped u (inside u old)).mpr old,rfl⟩
  rw [growproc]
  by_cases grow : n > 0
  · have exact : (uint (sz + n) : Int) = sz + n := uint_of_nonneg (by omega) (by omega)
    rw [if_pos grow,wp_bind]
    refine wp_allocuvm reg owned (fun high => ?_) (fun less => by omega) (fun m' leak larger high owned' extends' lossless _ => ?_)
      (fun _ _ _ _ _ may _ => by cases may) (fun high u after before present => ?_) fun _ _ _ => rfl
    · rw [if_pos rfl]
      exact ⟨.inr ⟨rfl,rfl,rfl⟩,owned⟩
    · obtain ⟨rfl,all⟩ := lossless fun lossy => by cases lossy.1
      rw [zero_add] at owned'
      rw [if_neg (by omega),wp_growproc_commit reg owned']
      refine ⟨.inl ⟨rfl,exact,high,extends'.mapped mapped larger all,fun u old _ => ?_,fun u after before => ?_⟩,owned'⟩
      · rw [extends'.outside u (lt_of_user (inside u old)) (by omega)]
        exact ⟨rfl,extends'.grows.frame owned reg (isFrame u old)⟩
      · obtain ⟨_,x,_,pte,zero⟩ := all u after before
        rw [pte,PTE_ADDR_mkPte (by decide),zero]
    · have := (mapped u (before.trans_le (pages_le high.le))).mp present
      omega
  rw [if_neg grow]
  by_cases shrink : n < 0
  · rw [if_pos shrink,wp_bind]
    refine wp_deallocuvm reg low.le owned (fun larger => ?_) fun m' smaller owned' shrinks ptes cleared => ?_
    · -- the sum is below 0, so it is a large number and nothing is freed; the size is 0
      have zero : sz = 0 := by
        by_contra some
        have exact : (uint (sz + n) : Int) = sz + n := uint_of_nonneg (by rcases leaves with _ | _ | _ <;> omega) (by omega)
        omega
      rw [if_pos zero]
      exact ⟨.inr ⟨rfl,rfl,rfl⟩,owned⟩
    · have positive : 0 < (sz : Int) + n := by
        rcases leaves with nonneg | above | zero
        · omega
        · exact above
        · omega
      have exact : (uint (sz + n) : Int) = sz + n := uint_of_nonneg (by omega) (by omega)
      rw [if_neg (by omega),wp_growproc_commit reg owned']
      have kept (u : Nat) (stays : u < pages (uint (sz + n))) : m'.pte d u = m.pte d u :=
        (ptes u (lt_of_user (inside u (stays.trans_le (pages_mono smaller.le))))).resolve_right (by omega)
      refine ⟨.inl ⟨rfl,exact,smaller.trans low,fun u user => ?_,fun u old stays => ?_,fun u after before => ?_⟩,owned'⟩
      · show _ ↔ u < pages (uint (sz + n))
        by_cases stays : u < pages (uint (sz + n))
        · rw [kept u stays,mapped u user]
          exact ⟨fun _ => stays,fun _ => stays.trans_le (pages_mono smaller.le)⟩
        · refine ⟨fun present => ?_,fun stays' => absurd stays' stays⟩
          rcases ptes u (lt_of_user user) with same | ⟨_,_,zero⟩
          · rw [same,mapped u user] at present
            -- the first page that goes is in a table that is there
            have first : pages (uint (sz + n)) < pages sz := by omega
            have steady : Steady m d (pages (uint (sz + n))) := .inr (table_of_present ((mapped _ (inside _ first)).mpr first))
            have gone := cleared steady u (by omega) present
            rw [same,(mapped u user).mpr present] at gone
            cases gone
          · rw [zero] at present
            cases present
      · rw [kept u stays]
        refine ⟨rfl,shrinks.kept _ (fun isTable => (owned.apart reg).tableFrame _ isTable (isFrame u old)) (.inl ?_)⟩
        refine mem_frames.mpr ⟨u,inside u old,?_,by rw [kept u stays]⟩
        rw [kept u stays,mapped u (inside u old)]
        exact old
      · have := pages_mono smaller.le
        exact absurd before (by show ¬u < pages (uint (sz + n)); omega)
  · have isZero : n = 0 := by omega
    rw [if_neg shrink,wp_growproc_commit reg owned]
    refine ⟨.inl ⟨rfl,by simp [isZero],low,mapped,fun _ _ _ => ⟨rfl,rfl⟩,fun u after before => absurd before (Nat.not_lt.mpr after)⟩,owned⟩

/-- What takes a process to the size 0 returns -1 and frees its pages; what takes it below returns 0 and does nothing. -/
theorem growproc_spoils (reg : Region All) (owned : Owned All m d R) (mapped : Mapped m d sz) (word : -2 ^ 31 ≤ n ∧ n < 2 ^ 31)
    (spoils : ¬ Leaves sz n) :
    Wp (handle never) (fun _ => False) (growproc d sz n) (fun r m' => ¬ Resized m m' d sz n r) m := by
  rw [← checked_true]
  have low := mapped.low owned reg
  have bound : sz < 2 ^ 31 := low
  rw [Leaves,not_or,not_or] at spoils
  rw [growproc,if_neg (by omega),if_pos (by omega),wp_bind]
  refine wp_deallocuvm reg low.le owned (fun larger => ?_) fun m' smaller owned' _ _ cleared => ?_
  · rw [if_neg spoils.2.2,wp_growproc_commit reg owned]
    rintro (⟨-,same,-⟩ | ⟨failed,-⟩)
    · have same : (sz : Int) = sz + n := same
      omega
    · cases failed
  · have zero : uint (sz + n) = 0 := by
      rw [uint] at smaller ⊢
      omega
    rw [if_pos zero]
    rintro (⟨failed,-⟩ | ⟨-,-,same⟩)
    · cases failed
    · have first : 0 < pages sz := lt_pages.mpr (by omega)
      have present := (mapped 0 (first.trans_le (pages_le low.le))).mpr first
      have gone := cleared (by rw [zero]; exact .inl (by decide)) 0 (by rw [zero]; decide) first
      rw [same,present] at gone
      cases gone

def Sbrk (d : Nat) (s s' : Mem × Nat) : Prop :=
  ∃ n r, (-2 ^ 31 ≤ n ∧ n < 2 ^ 31) ∧ Leaves s.2 n ∧ Prog.exec (handle never) (sys_sbrk d s.2 n) s.1 = .ok ((r,s'.2),s'.1)

theorem Resized.mapped {r : Int × Nat} (resized : Resized m m' d sz n r) (mapped : Mapped m d sz) : Mapped m' d r.2 := by
  rcases resized with ⟨_,_,_,mapped',_,_⟩ | ⟨_,same,rfl⟩
  · exact mapped'
  · rwa [same]

theorem Sbrk.keeps {s s' : Mem × Nat} (step : Sbrk d s s') (reg : Region All) (space : Owned All s.1 d R ∧ Mapped s.1 d s.2) :
    Owned All s'.1 d R ∧ Mapped s'.1 d s'.2 := by
  obtain ⟨n,r,word,leaves,run⟩ := step
  have call : Wp (handle never) (· = .sleep) (sys_sbrk d s.2 n) (fun r m' => Owned All m' d R ∧ Mapped m' d r.2) s.1 := by
    rw [sys_sbrk,wp_bind]
    refine wp_mono (growproc_resizes reg space.1 space.2 word leaves) fun r m' holds => ?_
    have kept := And.intro holds.2 (holds.1.mapped space.2)
    show Wp _ _ (if r.1 < 0 then _ else _) _ _
    split
    · exact kept
    · exact kept
  have kept := wp_ok call run
  exact kept

theorem sbrks_keep {s s' : Mem × Nat} (calls : Relation.ReflTransGen (Sbrk d) s s') (reg : Region All)
    (space : Owned All s.1 d R ∧ Mapped s.1 d s.2) : Owned All s'.1 d R ∧ Mapped s'.1 d s'.2 := by
  induction calls with
  | refl => exact space
  | tail _ step ih => exact step.keeps reg ih

/-- After any sequence of calls of `sbrk`, the pages that are present are those of the size, and the next call of `growproc`
    resizes the address space exactly or changes nothing, just if it does not take the process to 0 or below. -/
theorem sbrk_keeps_space (reg : Region All) (owned : Owned All m d R) (mapped : Mapped m d sz)
    (calls : Relation.ReflTransGen (Sbrk d) (m,sz) (m',sz')) :
    Mapped m' d sz' ∧ ∀ n : Int, -2 ^ 31 ≤ n ∧ n < 2 ^ 31 →
      (Wp (handle never) (· = .sleep) (growproc d sz' n) (fun r m'' => Resized m' m'' d sz' n r) m' ↔ Leaves sz' n) := by
  have space := sbrks_keep calls reg ⟨owned,mapped⟩
  refine ⟨space.2,fun n word => ⟨fun resizes => ?_,fun leaves => ?_⟩⟩
  · by_contra spoils
    obtain ⟨r,m'',run,fails⟩ := wp_returns (growproc_spoils reg space.1 space.2 word spoils)
    have resized := wp_ok resizes run
    exact fails resized
  · exact wp_mono (growproc_resizes reg space.1 space.2 word leaves) fun r m'' holds => holds.1

def threePages : Multiset Nat := ↑[0x200,0x201,0x202]

theorem region_threePages : Region threePages := by
  refine ⟨by decide,fun x member => ?_⟩
  have cases : x = 0x200 ∨ x = 0x201 ∨ x = 0x202 := by simpa [threePages] using member
  simp only [firstPage,lastPage,V2P,kend,KERNBASE,PHYSTOP,PGSIZE]
  omega

def onePage : Mem where
  page x :=
    if x = 0x200 then (Bytes.zero PGSIZE).setWord 0 (mkPte 0x201 (PTE_W + PTE_U))
    else if x = 0x201 then (Bytes.zero PGSIZE).setWord 0 (mkPte 0x202 (PTE_W + PTE_U))
    else Bytes.zero PGSIZE
  freelist := []
  calls := 0

theorem word_single {w k : Nat} (inside : k < NPTENTRIES) (fits : w < 2 ^ 32) (i : Nat) :
    ((Bytes.zero PGSIZE).setWord k w).word i = if i = k then w else 0 := by
  split
  · rename_i isK
    rw [isK,Bytes.word_setWord_same _ (by simp only [NPTENTRIES,PGSIZE] at *; omega) fits]
  · rename_i other
    rw [Bytes.word_setWord_ne _ _ other,Bytes.word_zero]

theorem pde_onePage (i : Nat) : onePage.pde 0x200 i = if i = 0 then mkPte 0x201 (PTE_W + PTE_U) else 0 := word_single (by decide) (by decide) i

theorem pte_onePage (u : Nat) : onePage.pte 0x200 u = if u = 0 then mkPte 0x202 (PTE_W + PTE_U) else 0 := by
  rw [Mem.pte,pde_onePage]
  by_cases first : u / NPTENTRIES = 0
  · rw [if_pos first,if_pos (by decide)]
    have inTable : u % NPTENTRIES = u := by
      simp only [NPTENTRIES] at *
      omega
    rw [inTable]
    exact word_single (by decide) (by decide) u
  · have notZero : u ≠ 0 := by
      rintro rfl
      exact first rfl
    rw [if_neg first,if_neg notZero]
    rfl

theorem owned_single {m : Mem} {k v : Nat} (free : m.freelist = []) (inside : k < NPDENTRIES) (user : v < USERPAGES)
    (pde : ∀ i, m.pde 0x200 i = if i = k then mkPte 0x201 (PTE_W + PTE_U) else 0)
    (pte : ∀ u, m.pte 0x200 u = if u = v then mkPte 0x202 (PTE_W + PTE_U) else 0) : Owned threePages m 0x200 0 := by
  have tables : m.tables 0x200 = 0x201 ::ₘ 0 := by
    rw [Mem.tables,taken_fill (g := fun _ => none) (x := 0x201) inside (fun j _ other => by rw [pde,if_neg other]; rfl) rfl
      (by rw [pde,if_pos rfl]; rfl),taken_empty fun _ _ => rfl]
  have frames : m.frames 0x200 = 0x202 ::ₘ 0 := by
    rw [Mem.frames,taken_fill (g := fun _ => none) (x := 0x202) user (fun j _ other => by rw [pte,if_neg other]; rfl) rfl
      (by rw [pte,if_pos rfl]; rfl),taken_empty fun _ _ => rfl]
  rw [Owned,Mem.tree,tables,frames,free]
  decide

theorem owned_onePage : Owned threePages onePage 0x200 0 := owned_single rfl (by decide) (by decide) pde_onePage pte_onePage

theorem owned_supplied (free : List Nat) : Owned ((free : Multiset Nat) + threePages) { onePage with freelist := free } 0x200 0 := by
  have same : ({ onePage with freelist := free } : Mem).tree 0x200 = onePage.tree 0x200 := tree_congr rfl fun _ _ => rfl
  rw [Owned,same,Multiset.add_right_inj]
  simpa [Owned,onePage] using owned_onePage

theorem mapped_onePage : Mapped onePage 0x200 PGSIZE := by
  intro u _
  rw [pte_onePage,lt_pages]
  by_cases first : u = 0
  · rw [if_pos first,first]
    decide
  · rw [if_neg first]
    exact ⟨fun present => (by cases present),fun inside => absurd inside (by simp only [PGSIZE]; omega)⟩

def twoFree : Mem := { onePage with freelist := [0x203,0x204] }

theorem region_twoFree : Region ((twoFree.freelist : Multiset Nat) + threePages) := by
  refine ⟨by decide,fun x member => ?_⟩
  have cases : x = 0x203 ∨ x = 0x204 ∨ x = 0x200 ∨ x = 0x201 ∨ x = 0x202 := by simpa [threePages,twoFree] using member
  simp only [firstPage,lastPage,V2P,kend,KERNBASE,PHYSTOP,PGSIZE]
  omega

/-- A process of a page grows by two pages, and shrinks to less than one. -/
theorem sbrk_keeps_space_back : ∃ m' m'', Prog.exec (handle never) (sys_sbrk 0x200 PGSIZE 5000) twoFree = .ok ((4096,9096),m') ∧
    Mapped m' 0x200 9096 ∧ Prog.exec (handle never) (growproc 0x200 9096 (-5001)) m' = .ok ((0,4095),m'') ∧
    Resized m' m'' 0x200 9096 (-5001) (0,4095) := by
  have first : (Prog.exec (handle never) (sys_sbrk 0x200 PGSIZE 5000) twoFree).toOption.map Prod.fst = some (4096,9096) := by
    decide +kernel
  obtain ⟨m',grows⟩ := exec_of_answer first
  have both : (Prog.exec (handle never) (sys_sbrk 0x200 PGSIZE 5000 >>= fun r => growproc 0x200 r.2 (-5001)) twoFree).toOption.map
    Prod.fst = some (0,4095) := by decide +kernel
  rw [exec_bind,grows] at both
  obtain ⟨m'',shrinks⟩ := Prog.exec_of_answer both
  obtain ⟨mapped,call⟩ := sbrk_keeps_space region_twoFree (owned_supplied _) mapped_onePage
    (.single ⟨5000,4096,by decide,.inl (by decide),grows⟩)
  have resized := wp_ok ((call (-5001) (by decide)).mpr (.inr (.inl (by decide)))) shrinks
  exact ⟨m',m'',grows,mapped,shrinks,resized⟩

/-- `sbrk(-sz)` returns -1 and leaves the size, but the pages are gone. -/
theorem sbrk_to_zero : Owned threePages onePage 0x200 0 ∧ Mapped onePage 0x200 PGSIZE ∧
    ∃ m', Prog.exec (handle never) (growproc 0x200 PGSIZE (-4096)) onePage = .ok ((-1,PGSIZE),m') ∧
      isPresent (onePage.pte 0x200 0) = true ∧ isPresent (m'.pte 0x200 0) = false := by
  refine ⟨owned_onePage,mapped_onePage,?_⟩
  have run : Wp (handle never) (fun _ => False) (growproc 0x200 PGSIZE (-4096))
      (fun r m' => r = (-1,PGSIZE) ∧ isPresent (m'.pte 0x200 0) = false) onePage := by
    rw [← checked_true]
    rw [growproc,if_neg (by decide),if_pos (by decide),wp_bind]
    refine wp_deallocuvm region_threePages (by decide) owned_onePage (fun larger => absurd larger (by decide))
      fun m' _ _ _ _ cleared => ?_
    rw [if_pos (by decide)]
    exact ⟨rfl,cleared (.inl (by decide)) 0 (by decide) (by decide)⟩
  obtain ⟨r,m',returned,rfl,gone⟩ := wp_returns run
  exact ⟨m',returned,by rw [pte_onePage,if_pos rfl]; exact isPresent_mkPte ..,gone⟩

end Osce.Vm
