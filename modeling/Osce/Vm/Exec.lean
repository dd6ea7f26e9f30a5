import Osce.Vm.Sbrk

/-!
What `exec` does to the memory: the new address space is built in a directory of its own from pages that were free, the
segments and the arguments are stored in its frames, and everything goes back to the free list if one of the steps fails.
Addresses are sums modulo 2^32, so this rests on the segments not wrapping around and on argument strings that
are shorter than the part of the address space above `DEVSPACE`.
-/
namespace Osce.Vm
open Osce.Lib Prog

variable {ok : Nat → Nat → Nat → Mem → Prop} {env : Env} {E : Stop → Prop} {All R : Multiset Nat} {m m' m'' : Mem} {d v x sz : Nat}

def Stored (m m' : Mem) (d : Nat) : Prop := m'.freelist = m.freelist ∧ ∀ y, y ∉ m.frames d → m'.page y = m.page y

section
variable (held : Owned All m d R) (reg : Region All) (stored : Stored m m' d)
include held reg stored

theorem Stored.dir : m'.page d = m.page d := stored.2 d (held.apart reg).dirFrame

theorem Stored.tables (y : Nat) (isTable : y ∈ m.tables d) : m'.page y = m.page y :=
  stored.2 y ((held.apart reg).tableFrame y isTable)

theorem Stored.pte (u : Nat) (low : u < 2 ^ 20) : m'.pte d u = m.pte d u :=
  pte_congr (stored.dir held reg) (stored.tables held reg) low

theorem Stored.frames : m'.frames d = m.frames d := frames_congr fun u user => stored.pte held reg u (lt_of_user user)

theorem Stored.owned : Owned All m' d R :=
  held.congr stored.1 (tree_congr (stored.dir held reg) (stored.tables held reg))

theorem Stored.mapped (mapped : Mapped m d sz) : Mapped m' d sz := by
  intro u user
  rw [stored.pte held reg u (lt_of_user user)]
  exact mapped u user

theorem Stored.kernel (kernel : Kernel m d) : Kernel m' d := by
  refine ⟨fun u low high => ?_,fun i between => ?_⟩
  · rw [stored.pte held reg u high]
    exact kernel.devices u low high
  · rw [pde_congr (stored.dir held reg)]
    exact kernel.gap i between

theorem Stored.rest (inRest : x ∈ R) : m'.page x = m.page x := stored.2 x ((held.apart reg).restFrame x inRest)

theorem Stored.trans (second : Stored m' m'' d) : Stored m m'' d := by
  refine ⟨second.1.trans stored.1,fun y notFrame => ?_⟩
  rw [second.2 y (by rwa [stored.frames held reg]),stored.2 y notFrame]

end

theorem Stored.refl (m : Mem) (d : Nat) : Stored m m d := ⟨rfl,fun _ _ => rfl⟩

theorem stored_setPage (isFrame : x ∈ m.frames d) (pg : Page) : Stored m (m.setPage x pg) d :=
  ⟨rfl,fun _ notFrame => setPage_other _ _ fun isX => notFrame (isX ▸ isFrame)⟩

theorem frame_writable (owned : Owned All m d R) (reg : Region All) (isFrame : x ∈ m.frames d) : writable x = true := by
  have inTree : x ∈ m.tree d + R := Multiset.mem_add.mpr (.inl (Multiset.mem_cons_of_mem (Multiset.mem_add.mpr (.inr isFrame))))
  obtain ⟨low,high⟩ := owned.range reg (.inl inTree)
  have data : V2P kdata / PGSIZE ≤ x := le_trans (by decide) low
  rw [writable]
  simp [data,high]

section
variable {Q : Unit → Mem → Prop} {bytes : List UInt8} {va off : Nat}

theorem wp_load (owned : Owned All m d R) (reg : Region All) (isFrame : x ∈ m.frames d) (allowed : ok d va x m)
    (done : ∀ m', Stored m m' d → Q () m') : Wp (checked ok env) E (perform (.load d va x bytes)) Q m := by
  rw [wp_op (by exact allowed),handle]
  by_cases empty : bytes = []
  · rw [if_pos empty]
    exact done m (.refl m d)
  · rw [if_neg empty,if_pos (frame_writable owned reg isFrame)]
    exact done _ (stored_setPage isFrame _)

theorem wp_store (owned : Owned All m d R) (reg : Region All) (isFrame : x ∈ m.frames d)
    (done : ∀ m', Stored m m' d → Q () m') : Wp (checked ok env) E (perform (.store x off bytes)) Q m := by
  rw [wp_op (by exact trivial),handle,if_pos (frame_writable owned reg isFrame)]
  exact done _ (stored_setPage isFrame _)

end

/-- The stores that `loaduvm` may make are those to the frame of the user page at the address. -/
def Permits (ok : Nat → Nat → Nat → Mem → Prop) (All R : Multiset Nat) (d : Nat) : Prop :=
  ∀ m va x, Owned All m d R → va < KERNBASE → own (m.pte d (va / PGSIZE)) = some x → ok d va x m

theorem wp_loaduvm_from {Q : Int → Mem → Prop} {addr offset size i : Nat} {file : List UInt8} (reg : Region All) (low : sz < KERNBASE)
    (fits : addr + size ≤ sz) (permits : Permits ok All R d) (turns : Nat) (owned : Owned All m d R) (mapped : Mapped m d sz)
    (done : ∀ r m', Stored m m' d → Q r m') : Wp (checked ok env) E (loaduvm_from d addr file offset size turns i) Q m := by
  induction turns generalizing m i with
  | zero => exact done 0 m (.refl m d)
  | succ turns ih =>
    rw [loaduvm_from]
    by_cases more : i < size
    swap
    · rw [if_neg more]
      exact done 0 m (.refl m d)
    have noWrap : wrap (addr + i) = addr + i := Nat.mod_eq_of_lt (by simp only [KERNBASE] at low; omega)
    have inside : (addr + i) / PGSIZE < pages sz := by
      rw [lt_pages]
      simp only [PGSIZE]
      omega
    have user : (addr + i) / PGSIZE < USERPAGES := inside.trans_le (pages_le low.le)
    have present := (mapped _ user).mpr inside
    have table := table_of_present present
    rw [if_pos more,noWrap,wp_bind,wp_walk (by simp only [KERNBASE] at low; omega),if_pos table]
    show Wp _ _ (perform (.entry (pteAt m d ((addr + i) / PGSIZE)).1 (pteAt m d ((addr + i) / PGSIZE)).2) >>= _) _ _
    rw [wp_bind,wp_entry,word_pteAt table]
    dsimp only
    cases readi file (wrap (offset + i)) (min (size - i) PGSIZE) with
    | none => exact done (-1) m (.refl m d)
    | some bytes =>
      have isFrame := mem_frames.mpr ⟨_,user,present,rfl⟩
      show Wp _ _ (perform (.load d (addr + i) (PTE_ADDR (m.pte d ((addr + i) / PGSIZE))) bytes) >>= _) _ _
      rw [wp_bind]
      refine wp_load owned reg isFrame (permits m _ _ owned (by omega) (own_of_present present)) fun m₁ stored => ?_
      split
      · exact done (-1) m₁ stored
      · exact ih (stored.owned owned reg) (stored.mapped owned reg mapped) fun r m' stored' => done r m' (stored.trans owned reg stored')

theorem wp_loaduvm {Q : Int → Mem → Prop} {addr offset size : Nat} {file : List UInt8} (reg : Region All) (low : sz < KERNBASE)
    (fits : addr + size ≤ sz) (permits : Permits ok All R d) (owned : Owned All m d R) (mapped : Mapped m d sz)
    (misaligned : addr % PGSIZE ≠ 0 → E (.panic "loaduvm: addr must be page aligned"))
    (done : ∀ r m', Stored m m' d → Q r m') : Wp (checked ok env) E (loaduvm d addr file offset size) Q m := by
  rw [loaduvm]
  by_cases aligned : addr % PGSIZE ≠ 0
  · rw [if_pos aligned]
    exact wp_panic.mpr (misaligned aligned)
  · rw [if_neg aligned]
    exact wp_loaduvm_from reg low fits permits _ owned mapped done

theorem isUser_device (u : Nat) : isUser (mkPte u PTE_W) = false := by
  rw [isUser,mkPte,PGSIZE,PTE_W,decide_eq_false_iff_not]
  omega

section
variable {Q : Option Nat → Mem → Prop} {cur va : Nat}

theorem wp_uva2ka_user (small : va < 2 ^ 32) (user : va / PGSIZE < USERPAGES) (present : isPresent (m.pte d (va / PGSIZE)) = true)
    (found : ∀ x ∈ m.frames d, Q (some x) m) (none : Q none m) : Wp (checked ok env) E (uva2ka cur d va) Q m := by
  have table := table_of_present present
  rw [uva2ka,wp_bind,wp_walk small,if_pos table]
  show Wp _ _ (perform (.entry (pteAt m d (va / PGSIZE)).1 (pteAt m d (va / PGSIZE)).2) >>= _) _ _
  rw [wp_bind,wp_entry,word_pteAt table]
  split
  · exact found _ (mem_frames.mpr ⟨_,user,present,rfl⟩)
  · exact none

theorem wp_uva2ka_device (kernel : Kernel m d) (small : va < 2 ^ 32) (device : DEVPAGE ≤ va / PGSIZE) (none : Q none m) :
    Wp (checked ok env) E (uva2ka cur d va) Q m := by
  have inside : va / PGSIZE < 2 ^ 20 := by
    simp only [PGSIZE]
    omega
  have pte := kernel.devices _ device inside
  have table : isPresent (m.pde d (va / PGSIZE / NPTENTRIES)) = true := table_of_present (by rw [pte]; exact isPresent_mkPte ..)
  rw [uva2ka,wp_bind,wp_walk small,if_pos table]
  show Wp _ _ (perform (.entry (pteAt m d (va / PGSIZE)).1 (pteAt m d (va / PGSIZE)).2) >>= _) _ _
  rw [wp_bind,wp_entry,word_pteAt table,pte,isUser_device,Bool.and_false]
  exact none

end

/-- Where `copyout` is called: bytes below the size, or above `DEVSPACE`. -/
def Target (sz va len : Nat) : Prop := len = 0 ∨ va + len ≤ sz ∨ DEVSPACE ≤ va ∧ va < 2 ^ 32

theorem wp_copyout_from {Q : Int → Mem → Prop} {cur va : Nat} {p : List UInt8} (reg : Region All) (low : sz < KERNBASE) (turns : Nat)
    (target : Target sz va p.length) (owned : Owned All m d R) (mapped : Mapped m d sz) (kernel : Kernel m d)
    (done : ∀ r m', Stored m m' d → (0 ≤ r → 0 < turns → 0 < p.length → va + p.length ≤ sz) → Q r m') :
    Wp (checked ok env) E (copyout_from cur d turns va p) Q m := by
  induction turns generalizing m va p with
  | zero => exact done 0 m (.refl m d) fun _ never => by omega
  | succ turns ih =>
    rw [copyout_from]
    by_cases more : p.length > 0
    swap
    · rw [if_neg more]
      exact done 0 m (.refl m d) fun _ _ some => by omega
    have page : PGROUNDDOWN va / PGSIZE = va / PGSIZE := by
      simp only [PGROUNDDOWN,PGSIZE]
      omega
    have down : PGROUNDDOWN va ≤ va := Nat.div_mul_le_self ..
    rw [if_pos more,wp_bind]
    rcases target with none | user | ⟨device,high⟩
    · omega
    · have inside : va / PGSIZE < pages sz := by
        rw [lt_pages]
        simp only [PGSIZE]
        omega
      have isUserPage : va / PGSIZE < USERPAGES := inside.trans_le (pages_le low.le)
      have small : PGROUNDDOWN va < 2 ^ 32 := by
        simp only [KERNBASE] at low
        omega
      refine wp_uva2ka_user small (by rwa [page]) (by rw [page]; exact (mapped _ isUserPage).mpr inside) (fun x isFrame => ?_) ?_
      · show Wp _ _ (perform (.store x (va - PGROUNDDOWN va) (p.take (min (PGSIZE - (va - PGROUNDDOWN va)) p.length))) >>= _) _ _
        rw [wp_bind]
        refine wp_store owned reg isFrame fun m₁ stored => ?_
        refine ih ?_ (stored.owned owned reg) (stored.mapped owned reg mapped) (stored.kernel owned reg kernel) fun r m' stored' _ => ?_
        · -- the rest of the bytes ends where all of them do
          rw [Target,List.length_drop]
          simp only [wrap,PGROUNDDOWN,PGSIZE,KERNBASE] at user low ⊢
          omega
        · exact done r m' (stored.trans owned reg stored') fun _ _ _ => user
      · exact done (-1) m (.refl m d) fun nonneg => by omega
    · refine wp_uva2ka_device kernel (by omega) ?_ (done (-1) m (.refl m d) fun nonneg => by omega)
      rw [page]
      simp only [DEVPAGE,DEVSPACE,PGSIZE] at *
      omega

theorem wp_copyout {Q : Int → Mem → Prop} {cur va : Nat} {p : List UInt8} (reg : Region All) (low : sz < KERNBASE)
    (target : Target sz va p.length) (owned : Owned All m d R) (mapped : Mapped m d sz) (kernel : Kernel m d)
    (done : ∀ r m', Stored m m' d → (0 ≤ r → 0 < p.length → va + p.length ≤ sz) → Q r m') :
    Wp (checked ok env) E (copyout cur d va p) Q m :=
  wp_copyout_from reg low _ target owned mapped kernel fun r m' stored fit => done r m' stored fun nonneg some => fit nonneg some some

structure Space (All R : Multiset Nat) (m : Mem) (d sz : Nat) : Prop where
  owned : Owned All m d R
  mapped : Mapped m d sz
  kernel : Kernel m d
  low : sz < KERNBASE

theorem space_zero (owned : Owned All m d R) (kernel : Kernel m d) (user : ∀ u < USERPAGES, m.pte d u = 0) : Space All R m d 0 := by
  refine ⟨owned,fun u low => ?_,kernel,by decide⟩
  rw [user u low]
  exact ⟨fun present => (by cases present),fun never => absurd never (by simp [pages,PGSIZE])⟩

def Kept (R : Multiset Nat) (m m' : Mem) : Prop := ∀ x ∈ R, m'.page x = m.page x

theorem Kept.trans (first : Kept R m m') (second : Kept R m' m'') : Kept R m m'' := fun x inRest =>
  (second x inRest).trans (first x inRest)

theorem Stored.space (stored : Stored m m' d) (space : Space All R m d sz) (reg : Region All) : Space All R m' d sz :=
  ⟨stored.owned space.owned reg,stored.mapped space.owned reg space.mapped,stored.kernel space.owned reg space.kernel,space.low⟩

theorem Stored.keeps (stored : Stored m m' d) (owned : Owned All m d R) (reg : Region All) : Kept R m m' := fun _ inRest =>
  stored.rest owned reg inRest

theorem Space.extend {newsz : Nat} (space : Space All R m d sz) (owned' : Owned All m' d R) (larger : sz ≤ newsz) (high : newsz < KERNBASE)
    (extends' : Extends m m' d (pages sz) (pages newsz)) (all : ∀ u, pages sz ≤ u → u < pages newsz → New m m' d u) : Space All R m' d newsz := by
  have bound : pages newsz ≤ USERPAGES := pages_le high.le
  refine ⟨owned',extends'.mapped space.mapped larger all,⟨fun u low above => ?_,fun i between => ?_⟩,high⟩
  · rw [extends'.outside u above ?_]
    · exact space.kernel.devices u low above
    · simp only [DEVPAGE,DEVSPACE,USERPAGES,KERNBASE,PGSIZE] at low bound
      omega
  · rw [extends'.grows.others i ?_]
    · exact space.kernel.gap i between
    · have := between.1
      simp only [USERPAGES,KERNBASE,PHYSTOP,PGSIZE,NPTENTRIES] at this ⊢
      omega

/-- `allocuvm` when no page table is lost: it fails and the directory is still owned, it is to make the space smaller, or there is a
    larger space with new pages. -/
theorem wp_allocuvm_new {Q : Nat → Mem → Prop} {newsz : Nat} (reg : Region All) (space : Space All R m d sz)
    (lossless : ¬Lossy env All R d (Gapless m d) (Wanted m d newsz))
    (done : ∀ m', Space All R m' d newsz → Kept R m m' → sz ≤ newsz → (∀ u, pages sz ≤ u → u < pages newsz → New m m' d u) → Q newsz m')
    (less : newsz < sz → Q sz m)
    (fail : ∀ m', Owned All m' d R → Kept R m m' →
      KERNBASE ≤ newsz ∨ Scarce env All R d (Gapless m d) (Wanted m d newsz) → Q 0 m')
    (sleep : ∀ table, Scarce env All R d (Gapless m d) (Wanted m d newsz) → env.may table = false → E .sleep) :
    Wp (checked ok env) E (allocuvm d sz newsz) Q m := by
  refine wp_allocuvm reg space.owned (fun high => ?_) less (fun m' leak larger high owned' extends' rest _ => ?_)
    (fun m' leak owned' kept rest _ scarce => ?_) (fun high u after before present => ?_) sleep
  · exact fail m space.owned (fun _ _ => rfl) (.inl high)
  · obtain ⟨rfl,all⟩ := rest lossless
    rw [zero_add] at owned'
    exact done m' (space.extend owned' larger high extends' all) (fun x inRest => extends'.grows.rest space.owned reg inRest) larger all
  · rw [rest lossless,zero_add] at owned'
    exact fail m' owned' kept (.inr scarce)
  · have := (space.mapped u (before.trans_le (pages_le high.le))).mp present
    omega

theorem wp_allocuvm_space {Q : Nat → Mem → Prop} {newsz : Nat} (reg : Region All) (space : Space All R m d sz)
    (lossless : ¬Lossy env All R d (Gapless m d) (Wanted m d newsz))
    (done : ∀ m' sz', Space All R m' d sz' → Kept R m m' → newsz ≤ sz' → sz' = sz ∨ sz' = newsz → Q sz' m')
    (fail : ∀ m', Owned All m' d R → Kept R m m' →
      KERNBASE ≤ newsz ∨ Scarce env All R d (Gapless m d) (Wanted m d newsz) → Q 0 m')
    (sleep : ∀ table, Scarce env All R d (Gapless m d) (Wanted m d newsz) → env.may table = false → E .sleep) :
    Wp (checked ok env) E (allocuvm d sz newsz) Q m :=
  wp_allocuvm_new reg space lossless (fun m' space' kept _ _ => done m' newsz space' kept (le_refl _) (.inr rfl))
    (fun less => done m sz space (fun _ _ => rfl) less.le (.inl rfl)) fail sleep

theorem own_clearUser (w : Nat) : own (clearUser w) = own w := by
  have bit : clearUser w % 2 = w % 2 := by
    rw [clearUser]
    omega
  have page : PTE_ADDR (clearUser w) = PTE_ADDR w := by
    rw [PTE_ADDR,PTE_ADDR,clearUser,PGSIZE]
    omega
  have present : isPresent (clearUser w) = isPresent w := by rw [isPresent,isPresent,bit]
  rw [own,own,present,page]

theorem wp_clearpteu {Q : Unit → Mem → Prop} (reg : Region All) (space : Space All R m d sz) (inside : v < pages sz)
    (done : ∀ m', Space All R m' d sz → Kept R m m' → (∀ u < 2 ^ 20, m'.pte d u = if u = v then clearUser (m.pte d v) else m.pte d u) →
      m'.page d = m.page d → Q () m') :
    Wp (checked ok env) E (clearpteu d (PGSIZE * v)) Q m := by
  have user : v < USERPAGES := inside.trans_le (pages_le space.low.le)
  have present := (space.mapped v user).mpr inside
  have table := table_of_present present
  have number : PGSIZE * v / PGSIZE = v := Nat.mul_div_cancel_left v (by decide)
  have small : PGSIZE * v < 2 ^ 32 := by
    simp only [USERPAGES,KERNBASE,PGSIZE] at user ⊢
    omega
  rw [clearpteu,wp_bind,wp_walk small,number,if_pos table]
  show Wp _ _ (perform (.entry (pteAt m d v).1 (pteAt m d v).2) >>= _) _ _
  rw [wp_bind,wp_entry,word_pteAt table,wp_setEntry]
  have fits : clearUser (m.pte d v) < 2 ^ 32 := by
    have := Bytes.word_lt (m.page (pteAt m d v).1) (pteAt m d v).2
    rw [word_pteAt table] at this
    exact lt_of_le_of_lt (Nat.sub_le ..) this
  have isTable : (pteAt m d v).1 ∈ m.tables d := mem_tables.mpr ⟨_,index_lt (lt_of_user user),table,rfl⟩
  have new := setPage_same m (pteAt m d v).1 ((m.page (pteAt m d v).1).setWord (pteAt m d v).2 (clearUser (m.pte d v)))
  have same (y : Nat) := setPage_other m (x := (pteAt m d v).1) (y := y)
    ((m.page (pteAt m d v).1).setWord (pteAt m d v).2 (clearUser (m.pte d v)))
  have free : (m.setPage (pteAt m d v).1 ((m.page (pteAt m d v).1).setWord (pteAt m d v).2 (clearUser (m.pte d v)))).freelist = m.freelist := rfl
  show Q () (m.setPage (pteAt m d v).1 ((m.page (pteAt m d v).1).setWord (pteAt m d v).2 (clearUser (m.pte d v))))
  generalize m.setPage (pteAt m d v).1 _ = m' at *
  obtain ⟨dir,ptes⟩ := (space.owned.separate reg).tabled.setPte (lt_of_user user) table fits new same
  refine done m' ⟨space.owned.remap free dir ptes (.inr (own_clearUser _)),fun u low => ?_,⟨fun u low high => ?_,fun i between => ?_⟩,space.low⟩
    (fun x inRest => same x fun isX => (space.owned.apart reg).restTable x inRest (isX ▸ isTable)) ptes dir
  · rw [← space.mapped u low,ptes u (lt_of_user low)]
    split
    · rename_i isV
      rw [isV,present]
      exact ⟨fun _ => rfl,fun _ => (own_eq_some.mp ((own_clearUser _).trans (own_of_present present))).1⟩
    · exact Iff.rfl
  · rw [ptes u high,if_neg]
    · exact space.kernel.devices u low high
    · rintro rfl
      simp only [DEVPAGE,DEVSPACE,USERPAGES,KERNBASE,PGSIZE] at low user
      omega
  · rw [pde_congr dir]
    exact space.kernel.gap i between

def headers (file : List UInt8) : Nat → Nat → List Proghdr
  | 0, _ => []
  | left + 1, off =>
    match readi file off SIZEOF_PROGHDR with
    | none => []
    | some bytes =>
      if bytes.length ≠ SIZEOF_PROGHDR then []
      else Proghdr.ofBytes bytes :: headers file left (wrap (off + SIZEOF_PROGHDR))

def programs (file : List UInt8) : List Proghdr :=
  match readi file 0 SIZEOF_ELFHDR with
  | none => []
  | some bytes => headers file (Elfhdr.ofBytes bytes).phnum (Elfhdr.ofBytes bytes).phoff

def Loads (ph : Proghdr) : Prop := ph.type = ELF_PROG_LOAD ∧ ph.filesz ≤ ph.memsz

theorem wp_exec_load {Q : Option Nat → Mem → Prop} {file : List UInt8} (reg : Region All) (assured : env.may true = false)
    (permits : Permits ok All R d) (left : Nat) {off : Nat} (space : Space All R m d sz)
    (noWrap : ∀ ph ∈ headers file left off, Loads ph → ph.vaddr + ph.memsz < 2 ^ 32)
    (misaligned : ∀ ph ∈ headers file left off, Loads ph → ph.vaddr % PGSIZE ≠ 0 → E (.panic "loaduvm: addr must be page aligned"))
    (done : ∀ m' sz', Space All R m' d sz' → Kept R m m' → Q (some sz') m')
    (fail : ∀ m', Owned All m' d R → Kept R m m' → Q none m')
    (sleep : ∀ table, env.may table = false → E .sleep) : Wp (checked ok env) E (exec_load d file left off sz) Q m := by
  induction left generalizing m off sz with
  | zero => exact done m sz space fun _ _ => rfl
  | succ left ih =>
    rw [headers] at noWrap misaligned
    rw [exec_load]
    cases header : readi file off SIZEOF_PROGHDR with
    | none => exact fail m space.owned fun _ _ => rfl
    | some bytes =>
      rw [header] at noWrap misaligned
      dsimp only at noWrap misaligned ⊢
      by_cases short : bytes.length ≠ SIZEOF_PROGHDR
      · rw [if_pos short]
        exact fail m space.owned fun _ _ => rfl
      rw [if_neg short] at noWrap misaligned ⊢
      generalize Proghdr.ofBytes bytes = ph at *
      have noWrapRest (q : Proghdr) (member : q ∈ headers file left (wrap (off + SIZEOF_PROGHDR))) := noWrap q (List.mem_cons_of_mem _ member)
      have misalignedRest (q : Proghdr) (member : q ∈ headers file left (wrap (off + SIZEOF_PROGHDR))) :=
        misaligned q (List.mem_cons_of_mem _ member)
      by_cases other : ph.type ≠ ELF_PROG_LOAD
      · rw [if_pos other]
        exact ih space noWrapRest misalignedRest done fail
      by_cases smaller : ph.memsz < ph.filesz
      · rw [if_neg other,if_pos smaller]
        exact fail m space.owned fun _ _ => rfl
      have loads : Loads ph := ⟨not_not.mp other,by omega⟩
      have sum : wrap (ph.vaddr + ph.memsz) = ph.vaddr + ph.memsz := Nat.mod_eq_of_lt (noWrap ph (List.mem_cons_self ..) loads)
      rw [if_neg other,if_neg smaller,wp_bind,sum]
      refine wp_allocuvm_space reg space (not_lossy assured) (fun m₁ sz₁ space₁ kept₁ reaches _ => ?_)
        (fun m₁ owned₁ kept₁ _ => ?_) fun table _ => sleep table
      · by_cases zero : sz₁ = 0
        · rw [if_pos zero]
          exact fail m₁ space₁.owned kept₁
        rw [if_neg zero,wp_bind]
        refine wp_loaduvm reg space₁.low (by omega) permits space₁.owned space₁.mapped
          (misaligned ph (List.mem_cons_self ..) loads) fun r m₂ stored => ?_
        have kept₂ := kept₁.trans (stored.keeps space₁.owned reg)
        split
        · exact fail m₂ (stored.owned space₁.owned reg) kept₂
        · exact ih (stored.space space₁ reg) noWrapRest misalignedRest
            (fun m' sz' space' kept' => done m' sz' space' (kept₂.trans kept')) fun m' owned' kept' => fail m' owned' (kept₂.trans kept')
      · rw [if_pos rfl]
        exact fail m₁ owned₁ kept₁

theorem target_down {sp len : Nat} (below : sp ≤ sz) (low : sz < KERNBASE) (short : len ≤ 2 ^ 32 - DEVSPACE) (aligned : Nat)
    (rounds : aligned = 1 ∨ aligned = 4) : Target sz (wrap (sp + (2 ^ 32 - len)) / aligned * aligned) len := by
  rw [Target]
  simp only [wrap,KERNBASE,DEVSPACE] at *
  rcases rounds with rfl | rfl
  · omega
  · omega

theorem wp_exec_args {Q : Option (Nat × List Nat) → Mem → Prop} {cur : Nat} (reg : Region All) (argv : List (List UInt8))
    (short : ∀ arg ∈ argv, arg.length < 2 ^ 32 - DEVSPACE) {sp : Nat} {ustack : List Nat} (below : sp ≤ sz) (few : ustack.length ≤ MAXARG)
    (space : Space All R m d sz)
    (done : ∀ m' sp' strings, Stored m m' d → sp' ≤ sz → strings.length ≤ MAXARG → Q (some (sp',strings)) m')
    (fail : ∀ m', Stored m m' d → Q none m') : Wp (checked ok env) E (exec_args cur d argv sp ustack) Q m := by
  induction argv generalizing m sp ustack with
  | nil => exact done m sp ustack (.refl m d) below few
  | cons arg argv ih =>
    rw [exec_args]
    by_cases full : ustack.length ≥ MAXARG
    · rw [if_pos full]
      exact fail m (.refl m d)
    rw [if_neg full]
    have length : (arg ++ [0]).length = arg.length + 1 := by simp
    have target := target_down below space.low (short arg (List.mem_cons_self ..)) 4 (.inr rfl)
    dsimp only
    rw [wp_bind]
    refine wp_copyout reg space.low (by rwa [length]) space.owned space.mapped space.kernel fun r m₁ stored fit => ?_
    by_cases failed : r < 0
    · rw [if_pos failed]
      exact fail m₁ stored
    rw [if_neg failed]
    have inside := fit (by omega) (by omega)
    refine ih (fun q member => short q (List.mem_cons_of_mem _ member)) (by omega) ?_ (stored.space space reg)
      (fun m' sp' strings stored' => done m' sp' strings (stored.trans space.owned reg stored'))
      fun m' stored' => fail m' (stored.trans space.owned reg stored')
    simp only [List.length_append,List.length_singleton]
    omega

theorem length_words (words : List Nat) : (words.flatMap (leBytes 4)).length = 4 * words.length := by
  induction words with
  | nil => rfl
  | cons w words ih =>
    rw [List.flatMap_cons,List.length_append,length_leBytes,ih,List.length_cons]
    omega

def OnStack (sz sp : Nat) : Prop := sp ≤ sz ∨ 2 ^ 32 - 16 ≤ sp ∧ sp < 2 ^ 32

theorem target_words {sp len : Nat} (onStack : OnStack sz sp) (low : sz < KERNBASE) (short : len ≤ 144) :
    Target sz (wrap (sp + (2 ^ 32 - len))) len := by
  rw [Target]
  rw [OnStack] at onStack
  simp only [wrap,KERNBASE,DEVSPACE] at *
  omega

theorem onStack_down {sp : Nat} (below : sp ≤ sz) (low : sz < KERNBASE) : OnStack sz (wrap (sp + (2 ^ 32 - 16))) := by
  rw [OnStack]
  simp only [wrap,KERNBASE] at *
  omega

theorem wp_exec_push {Q : Option Image → Mem → Prop} {cur entry sp : Nat} {strings : List Nat} (reg : Region All)
    (space : Space All R m d sz) (below : sp ≤ sz) (few : strings.length ≤ MAXARG)
    (done : ∀ m' image, Stored m m' d → image.pgdir = d → image.sz = sz → Q (some image) m')
    (fail : ∀ m', Stored m m' d → Q none m') : Wp (checked ok env) E (exec_push cur d sz entry sp strings) Q m := by
  have length (words : List Nat) (three : words.length = 3) : ((words ++ strings ++ [0]).flatMap (leBytes 4)).length = (3 + strings.length + 1) * 4 := by
    rw [length_words,List.length_append,List.length_append,three,List.length_singleton,Nat.mul_comm]
  rw [exec_push,wp_bind]
  refine wp_copyout reg space.low (target_words (.inl below) space.low (by decide)) space.owned space.mapped space.kernel
    fun _ m₁ stored₁ _ => ?_
  have space₁ := stored₁.space space reg
  rw [wp_bind]
  refine wp_copyout reg space.low ?_ space₁.owned space₁.mapped space₁.kernel fun r m₂ stored₂ _ => ?_
  · rw [length _ rfl]
    exact target_words (onStack_down below space.low) space.low (by simp only [MAXARG] at few; omega)
  · have stored := stored₁.trans space.owned reg stored₂
    split
    · exact fail m₂ stored
    · exact done m₂ _ stored rfl rfl

/-- An address space that ends with the page `g`, which the process may not use, and the page of the stack. -/
structure Stack (All R : Multiset Nat) (m : Mem) (d g : Nat) : Prop where
  space : Space All R m d (PGSIZE * (g + 2))
  guard : isUser (m.pte d g) = false
  user : isUser (m.pte d (g + 1)) = true

theorem isUser_mkPte (x : Nat) : isUser (mkPte x (PTE_W + PTE_U)) = true := by
  rw [isUser,mkPte,PGSIZE,PTE_W,PTE_U,decide_eq_true_iff]
  omega

theorem isUser_clearUser (w : Nat) : isUser (clearUser w) = false := by
  rw [isUser,clearUser,decide_eq_false_iff_not]
  omega

theorem wp_exec_stack_by {Q : Option Image → Mem → Prop} {cur entry : Nat} {argv : List (List UInt8)} (reg : Region All)
    (assured : env.may true = false) (space : Space All R m d sz)
    (args : ∀ m₁, Stack All R m₁ d (pages sz) → Kept R m m₁ → Wp (checked ok env) E (exec_args cur d argv (PGSIZE * (pages sz + 2)) [])
      (fun pushed m₂ => match pushed with
        | none => Q none m₂
        | some (sp,strings) => Wp (checked ok env) E (exec_push cur d (PGSIZE * (pages sz + 2)) entry sp strings) Q m₂) m₁)
    (fail : ∀ m', Owned All m' d R → Kept R m m' → Q none m')
    (sleep : ∀ table, env.may table = false → E .sleep) : Wp (checked ok env) E (exec_stack cur d sz entry argv) Q m := by
  have low := space.low
  have up : PGROUNDUP sz = PGSIZE * pages sz := PGROUNDUP_eq low.le
  have sum : wrap (PGROUNDUP sz + 2 * PGSIZE) = PGSIZE * (pages sz + 2) := by
    rw [up]
    simp only [wrap,pages,KERNBASE,PGSIZE] at *
    omega
  have samePages (n : Nat) : pages (PGSIZE * n) = n := by
    simp only [pages,PGSIZE]
    omega
  rw [exec_stack,wp_bind,sum,up]
  rcases Nat.lt_or_ge (PGSIZE * pages sz) KERNBASE with fits | high
  swap
  · -- the stack does not fit below the kernel
    rw [allocuvm,if_pos (by simp only [PGSIZE] at high ⊢; omega),wp_pure,if_pos rfl]
    exact fail m space.owned fun _ _ => rfl
  have rounded : Space All R m d (PGSIZE * pages sz) :=
    ⟨space.owned,fun u user => by rw [samePages]; exact space.mapped u user,space.kernel,by omega⟩
  refine wp_allocuvm_new reg rounded (not_lossy assured) (fun m₁ space₁ kept₁ _ new => ?_) (fun less => ?_) (fun m₁ owned₁ kept₁ _ => ?_)
    fun table _ => sleep table
  · have top : pages sz + 1 < 2 ^ 20 := by
      have := space₁.low
      simp only [KERNBASE,PGSIZE] at this
      omega
    have guard : wrap (PGSIZE * (pages sz + 2) + (2 ^ 32 - 2 * PGSIZE)) = PGSIZE * pages sz := by
      simp only [wrap,PGSIZE]
      omega
    rw [if_neg (by rw [PGSIZE]; omega),wp_bind,guard]
    refine wp_clearpteu reg space₁ (by rw [samePages]; omega) fun m₂ space₂ kept₂ ptes _ => ?_
    have stack : Stack All R m₂ d (pages sz) := by
      refine ⟨space₂,?_,?_⟩
      · rw [ptes _ (by omega),if_pos rfl]
        exact isUser_clearUser _
      · obtain ⟨_,x,_,isPte,_⟩ := new (pages sz + 1) (by rw [samePages]; omega) (by rw [samePages]; omega)
        rw [ptes _ top,if_neg (by omega),isPte]
        exact isUser_mkPte _
    rw [wp_bind]
    refine wp_mono (args m₂ stack (kept₁.trans kept₂)) fun pushed m₃ rest => ?_
    cases pushed with
    | none => exact rest
    | some pair => exact rest
  · rw [PGSIZE] at less
    omega
  · rw [if_pos rfl]
    exact fail m₁ owned₁ kept₁

theorem wp_exec_stack {Q : Option Image → Mem → Prop} {cur entry : Nat} {argv : List (List UInt8)} (reg : Region All)
    (assured : env.may true = false) (short : ∀ arg ∈ argv, arg.length < 2 ^ 32 - DEVSPACE) (space : Space All R m d sz)
    (done : ∀ m' image, Space All R m' d image.sz → Kept R m m' → image.pgdir = d → Q (some image) m')
    (fail : ∀ m', Owned All m' d R → Kept R m m' → Q none m')
    (sleep : ∀ table, env.may table = false → E .sleep) : Wp (checked ok env) E (exec_stack cur d sz entry argv) Q m := by
  refine wp_exec_stack_by reg assured space (fun m₁ stack kept => ?_) fail sleep
  refine wp_exec_args reg argv short (le_refl _) (by decide) stack.space (fun m₂ sp strings stored below few => ?_) fun m₂ stored => ?_
  · have space₂ := stored.space stack.space reg
    have kept₂ := kept.trans (stored.keeps stack.space.owned reg)
    refine wp_exec_push reg space₂ below few (fun m₃ image stored₃ isDir isSize => ?_) fun m₃ stored₃ => ?_
    · exact done m₃ image (by rw [isSize]; exact stored₃.space space₂ reg) (kept₂.trans (stored₃.keeps space₂.owned reg)) isDir
    · exact fail m₃ (stored₃.owned space₂.owned reg) (kept₂.trans (stored₃.keeps space₂.owned reg))
  · exact fail m₂ (stored.owned stack.space.owned reg) (kept.trans (stored.keeps stack.space.owned reg))

/-- `exec` in a machine in which `walkpgdir` always finds a page, by what it does from the stack on. -/
theorem wp_exec_by {Q : Option Image → Mem → Prop} {G : Nat → Image → Mem → Prop} {cur : Nat} {file : List UInt8} {argv : List (List UInt8)}
    (reg : Region All) (divided : Divided All m R) (assured : env.may true = false)
    (permits : ∀ d, m.freelist.head? = some d → Permits ok All R d) (noWrap : ∀ ph ∈ programs file, Loads ph → ph.vaddr + ph.memsz < 2 ^ 32)
    (misaligned : ∀ ph ∈ programs file, Loads ph → ph.vaddr % PGSIZE ≠ 0 → E (.panic "loaduvm: addr must be page aligned"))
    (stack : ∀ m₁ d sz entry, Space All R m₁ d sz → Wp (checked ok env) E (exec_stack cur d sz entry argv)
      (fun image m₂ => Kept R m₁ m₂ ∧ match image with
        | none => Owned All m₂ d R
        | some image => G d image m₂) m₁)
    (done : ∀ m' d image, G d image m' → Kept R m m' → Q (some image) m')
    (fail : ∀ m', Divided All m' R → Kept R m m' → Q none m')
    (sleep : ∀ table, env.may table = false → E .sleep) : Wp (checked ok env) E (exec cur file argv) Q m := by
  rw [programs] at noWrap misaligned
  rw [exec]
  have same : Kept R m m := fun _ _ => rfl
  cases header : readi file 0 SIZEOF_ELFHDR with
  | none => exact fail m divided same
  | some bytes =>
    rw [header] at noWrap misaligned
    dsimp only at noWrap misaligned ⊢
    by_cases small : bytes.length < SIZEOF_ELFHDR
    · rw [if_pos small]
      exact fail m divided same
    rw [if_neg small]
    generalize Elfhdr.ofBytes bytes = elf at *
    by_cases other : elf.magic ≠ ELF_MAGIC
    · rw [if_pos other]
      exact fail m divided same
    rw [if_neg other,wp_bind]
    refine wp_setupkvm reg divided (fun m₁ d rest owned₁ kernel₁ user untouched list => ?_) (fun m₁ leak divided₁ lossless untouched _ => ?_)
      fun table _ => sleep table
    swap
    · rw [lossless assured,zero_add] at divided₁
      exact fail m₁ divided₁ fun x inRest => untouched.2 x (divided.notFree reg inRest)
    have kept₁ : Kept R m m₁ := fun x inRest => untouched.2 x (divided.notFree reg inRest)
    have space₁ := space_zero owned₁ kernel₁ user
    -- whatever fails from here on frees the directory
    have bad (m₂ : Mem) (owned₂ : Owned All m₂ d R) (kept₂ : Kept R m m₂) :
        Wp (checked ok env) E (freevm d >>= fun _ => pure none) Q m₂ := by
      rw [wp_bind]
      exact wp_freevm reg owned₂ fun m₃ divided₃ kept₃ => fail m₃ divided₃ (kept₂.trans kept₃)
    show Wp _ _ (exec_load d file elf.phnum elf.phoff 0 >>= _) _ _
    rw [wp_bind]
    refine wp_exec_load reg assured (permits d (by rw [list]; rfl)) _ space₁ noWrap misaligned (fun m₂ sz₂ space₂ kept₂ => ?_)
      (fun m₂ owned₂ kept₂ => bad m₂ owned₂ (kept₁.trans kept₂)) sleep
    show Wp _ _ (exec_stack cur d sz₂ elf.entry argv >>= _) _ _
    rw [wp_bind]
    refine wp_mono (stack m₂ d sz₂ elf.entry space₂) fun image m₃ built => ?_
    obtain ⟨kept₃,built⟩ := built
    cases image with
    | none => exact bad m₃ built ((kept₁.trans kept₂).trans kept₃)
    | some image => exact done m₃ d image built ((kept₁.trans kept₂).trans kept₃)

/-- `exec` then makes a new address space, or it returns -1 and all pages are free again. -/
theorem wp_exec {Q : Option Image → Mem → Prop} {cur : Nat} {file : List UInt8} {argv : List (List UInt8)} (reg : Region All)
    (divided : Divided All m R) (assured : env.may true = false) (permits : ∀ d, m.freelist.head? = some d → Permits ok All R d)
    (noWrap : ∀ ph ∈ programs file, Loads ph → ph.vaddr + ph.memsz < 2 ^ 32)
    (misaligned : ∀ ph ∈ programs file, Loads ph → ph.vaddr % PGSIZE ≠ 0 → E (.panic "loaduvm: addr must be page aligned"))
    (short : ∀ arg ∈ argv, arg.length < 2 ^ 32 - DEVSPACE)
    (done : ∀ m' image, Owned All m' image.pgdir R → image.sz < KERNBASE → Kept R m m' → Q (some image) m')
    (fail : ∀ m', Divided All m' R → Kept R m m' → Q none m')
    (sleep : ∀ table, env.may table = false → E .sleep) : Wp (checked ok env) E (exec cur file argv) Q m := by
  refine wp_exec_by (G := fun d image m' => Space All R m' d image.sz ∧ image.pgdir = d) reg divided assured permits noWrap misaligned
    (fun m₁ d sz entry space => ?_) (fun m' d image built kept => ?_) fail sleep
  · exact wp_exec_stack reg assured short space (fun m₂ image space' kept isDir => ⟨kept,space',isDir⟩) (fun m₂ owned kept => ⟨kept,owned⟩) sleep
  · exact done m' image (by rw [built.2]; exact built.1.owned) built.1.low kept

end Osce.Vm
