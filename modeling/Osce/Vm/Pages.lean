import Osce.Vm.Fork

/-!
What `mappages` and `deallocuvm` do to a page directory of any shape, with any of its page
tables missing.
-/
namespace Osce.Vm
open Osce.Lib Prog

variable {env : Env} {m m' : Mem} {d : Nat}

/-- The loop of `mappages` with the test that ends it, for a number of turns; `none` when they are over. -/
def mappages_until (pgdir perm last : Nat) : Nat → Nat → Nat → VmProg (Option Int)
  | 0, _, _ => pure none
  | turns + 1, a, pa => do
    let pte ← walkpgdir pgdir a true
    match pte with
    | none => pure (some (-1))
    | some (t,i) => do
      let old ← perform (.entry t i)
      if isPresent old then panic "remap"
      else do
        perform (.setEntry t i (mkPte pa perm))
        if a = last then pure (some 0)
        else mappages_until pgdir perm last turns (wrap (a + PGSIZE)) (wrap ((pa + 1) * PGSIZE) / PGSIZE)

theorem mappages_until_eq {perm last : Nat} (n : Nat) {turns v pa : Nat} (virt : v + n < 2 ^ 20) (isLast : last = PGSIZE * (v + n)) (enough : n < turns) :
    mappages_until d perm last turns (PGSIZE * v) pa = mappages_from d perm (n + 1) (PGSIZE * v) pa >>= fun r => pure (some r) := by
  obtain ⟨turns,rfl⟩ : ∃ left, turns = left + 1 := ⟨turns - 1,by omega⟩
  have nextVirt (more : n ≠ 0) : wrap (PGSIZE * v + PGSIZE) = PGSIZE * (v + 1) := by
    simp only [wrap,PGSIZE]
    omega
  rw [mappages_until,mappages_from,bind_assoc]
  refine congrArg _ (funext fun pte => ?_)
  cases pte with
  | none => rfl
  | some at' =>
    obtain ⟨t,i⟩ := at'
    show (perform (.entry t i) >>= _) = _
    rw [bind_assoc]
    refine congrArg _ (funext fun old => ?_)
    by_cases present : isPresent old = true
    · rw [if_pos present,if_pos present]
      exact congrArg (Prog.call _) (funext (by simp))
    · rw [if_neg present,if_neg present,Prog.bind_assoc]
      refine congrArg _ (funext fun _ => ?_)
      cases n with
      | zero =>
        refine (if_pos isLast.symm).trans ?_
        rfl
      | succ n =>
        rw [if_neg (by simp only [PGSIZE] at *; omega),nextVirt (by omega)]
        exact mappages_until_eq n (by omega) (by rw [isLast]; congr 1; omega) (by omega)

/-- The entries of the directory that have a page table once `n` pages from `v` on are mapped. -/
def needed (m : Mem) (d v n : Nat) : Finset Nat :=
  (Finset.range NPDENTRIES).filter fun i => isPresent (m.pde d i) = true ∨ ∃ k < n, (v + k) / NPTENTRIES = i

/-- Where the loop stops, there was no page left for a table. -/
theorem few_of_stop {v n k : Nat} (virt : v + n ≤ 2 ^ 20) (less : k < n) (spent : Spent m m' d) (grows : Grows (Tables v n) m m' d)
    (absent : isPresent (m'.pde d ((v + k) / NPTENTRIES)) = false) (none : m'.freelist = []) :
    m.freelist.length + (m.tables d).card < (needed m d v n).card := by
  have counts := congrArg Multiset.card spent
  rw [Multiset.card_add,Multiset.card_add,none,Multiset.coe_card,Multiset.coe_card,List.length_nil,Nat.zero_add] at counts
  have here : (v + k) / NPTENTRIES ∈ needed m d v n :=
    Finset.mem_filter.mpr ⟨Finset.mem_range.mpr (index_lt (by omega)),.inr ⟨k,less,rfl⟩⟩
  have few : (m'.tables d).card ≤ ((needed m d v n).erase ((v + k) / NPTENTRIES)).card := by
    rw [Mem.tables]
    refine card_taken_among fun i inside outside => own_of_absent ?_
    by_cases isHere : i = (v + k) / NPTENTRIES
    · rw [isHere,absent]
    · have never : ¬(isPresent (m.pde d i) = true ∨ ∃ k < n, (v + k) / NPTENTRIES = i) := fun there =>
        outside (Finset.mem_erase.mpr ⟨isHere,Finset.mem_filter.mpr ⟨Finset.mem_range.mpr inside,there⟩⟩)
      rw [not_or] at never
      rw [grows.others i (by rintro ⟨u,from',before,isU⟩; exact never.2 ⟨u - v,by omega,by rw [isU]; congr 1; omega⟩)]
      simpa using never.1
  rw [Finset.card_erase_of_mem here] at few
  have := Finset.card_pos.mpr ⟨_,here⟩
  omega

/-- The entry that `walkpgdir` finds for an address, 0 where there is none. -/
def found (d va : Nat) : VmProg Nat := do
  let pte ← walkpgdir d va false
  match pte with
  | none => pure 0
  | some (t,i) => perform (.entry t i)

theorem exec_found {va : Nat} (small : va < 2 ^ 32) : Prog.exec (handle env) (found d va) m = .ok (m.pte d (va / PGSIZE),m) := by
  have run : Wp (checked (fun _ _ _ _ => True) env) (fun _ => False) (found d va) (fun r m' => r = m.pte d (va / PGSIZE) ∧ m' = m) m := by
    rw [found,wp_bind,wp_walk small]
    by_cases table : isPresent (m.pde d (va / PGSIZE / NPTENTRIES)) = true
    · rw [if_pos table]
      exact wp_entry.mpr ⟨word_pteAt table,rfl⟩
    · rw [if_neg table]
      exact ⟨(pte_of_absent (by simpa using table)).symm,rfl⟩
  rw [checked_true] at run
  obtain ⟨r,m',answer,rfl,rfl⟩ := wp_returns run
  exact answer

/-- `mappages` ends, and what `walkpgdir` then finds is the map as it was with the pages of the range added. -/
theorem mappages_maps (env : Env) (va size pa perm : Nat) (supplied : Supplied m d) (given : ∀ c, env.refuse c = false) (some' : 0 < size)
    (noWrap : va + size ≤ 2 ^ 32) (page : pa < 2 ^ 20) (flags : perm < PGSIZE)
    (absent : ∀ u, va / PGSIZE ≤ u → u < pages (va + size) → isPresent (m.pte d u) = false)
    (enough : (needed m d (va / PGSIZE) (pages (va + size) - va / PGSIZE)).card ≤ m.freelist.length + (m.tables d).card) :
    ∃ m', Prog.exec (handle env) (mappages d va size pa perm) m = .ok (0,m') ∧
      (∀ turns, 2 ^ 20 ≤ turns → Prog.exec (handle env)
        (mappages_until d perm (PGROUNDDOWN (wrap (va + size + (2 ^ 32 - 1)))) turns (PGROUNDDOWN va) pa) m = .ok (some 0,m')) ∧
      (∀ a < 2 ^ 32, Prog.exec (handle env) (found d a) m' = .ok (if va / PGSIZE ≤ a / PGSIZE ∧ a / PGSIZE < pages (va + size)
        then mkPte ((pa + (a / PGSIZE - va / PGSIZE)) % 2 ^ 20) perm else m.pte d (a / PGSIZE),m')) ∧
      ∀ u < 2 ^ 20, ∀ w < 2 ^ 20, u ≠ w → isPresent (m'.pde d (u / NPTENTRIES)) = true → isPresent (m'.pde d (w / NPTENTRIES)) = true →
        pteAt m' d u ≠ pteAt m' d w := by
  obtain ⟨v,isV⟩ : ∃ v, va / PGSIZE = v := ⟨_,rfl⟩
  obtain ⟨n,count⟩ : ∃ n, pages (va + size) = v + (n + 1) := ⟨pages (va + size) - v - 1,by simp only [pages,PGSIZE] at *; omega⟩
  have virt : v + (n + 1) ≤ 2 ^ 20 := by
    rw [← count]
    simp only [pages,PGSIZE]
    omega
  have small : PGSIZE * v < 2 ^ 32 := by
    simp only [PGSIZE]
    omega
  have first : PGROUNDDOWN va = PGSIZE * v := by rw [PGROUNDDOWN,isV,Nat.mul_comm]
  have last : PGROUNDDOWN (wrap (va + size + (2 ^ 32 - 1))) = PGSIZE * (v + n) := by
    simp only [PGROUNDDOWN,wrap,pages,PGSIZE] at isV count ⊢
    omega
  have turns : wrap (PGSIZE * (v + n) + (2 ^ 32 - PGSIZE * v)) / PGSIZE = n := by
    simp only [wrap,PGSIZE] at small ⊢
    omega
  have program : mappages d va size pa perm = mappages_from d perm (n + 1) (PGSIZE * v) pa := by
    rw [mappages,last,first,turns]
  rw [isV,count] at absent enough
  rw [Nat.add_sub_cancel_left] at enough
  have run : Wp (checked (fun _ _ _ _ => True) env) (fun _ => False) (mappages_from d perm (n + 1) (PGSIZE * v % 2 ^ 32) (pa % 2 ^ 20))
      (fun r m' => r = 0 ∧ Supplied m' d ∧ Maps m m' d v pa perm (n + 1)) m := by
    refine wp_mappages_by flags (n + 1) virt supplied (fun m' supplied' _ maps _ => ⟨rfl,supplied',maps⟩)
      (fun m' k less spent _ grows missing fails => ?_) fun u from' before present => ?_
    · have empty := fails.resolve_left (by simp [given])
      have := few_of_stop virt less spent grows missing empty
      omega
    · rw [absent u from' before] at present
      cases present
  rw [checked_true,Nat.mod_eq_of_lt small,Nat.mod_eq_of_lt page] at run
  obtain ⟨r,m',answer,rfl,supplied',maps⟩ := wp_returns run
  refine ⟨m',by rw [program,answer],fun turns enough' => ?_,fun a small => ?_,fun u hu w hw other tableU tableW same => other ?_⟩
  · rw [last,first,mappages_until_eq n (by omega) rfl (by omega),exec_bind,answer]
    rfl
  · rw [exec_found small,maps _ (by simp only [PGSIZE]; omega),isV,count]
  · rw [pteAt,pteAt,Prod.mk.injEq] at same
    have sameTable := table_inj supplied'.tabled.tables (index_lt hu) (index_lt hw) tableU tableW same.1
    rw [← Nat.div_add_mod u NPTENTRIES,← Nat.div_add_mod w NPTENTRIES,sameTable,same.2]

/-- Two pages of which the second needs a table of its own. -/
theorem mappages_maps_boundary : ∃ m', Prog.exec (handle never) (mappages 0x200 (1023 * PGSIZE) (2 * PGSIZE) 5 PTE_W) onePageFree = .ok (0,m') ∧
    isPresent (onePageFree.pde 0x200 1) = false ∧
    Prog.exec (handle never) (found 0x200 (1023 * PGSIZE)) m' = .ok (mkPte 5 PTE_W,m') ∧
    Prog.exec (handle never) (found 0x200 (1024 * PGSIZE)) m' = .ok (mkPte 6 PTE_W,m') := by
  have pdes (i : Nat) (other : i ≠ 0) : onePageFree.pde 0x200 i = 0 := (pde_onePage i).trans (if_neg other)
  have few : (needed onePageFree 0x200 1023 2).card ≤ 2 := by
    refine Finset.card_le_card (t := {0,1}) fun i there => ?_
    rw [Finset.mem_insert,Finset.mem_singleton]
    rcases (Finset.mem_filter.mp there).2 with present | ⟨k,less,isI⟩
    · by_contra other
      rw [pdes i (by omega)] at present
      cases present
    · simp only [NPTENTRIES] at isI
      omega
  have free : 2 ≤ onePageFree.freelist.length := by rw [onePageFree,List.length_range']; decide
  have absent (u : Nat) (other : 1 ≤ u) : onePageFree.pte 0x200 u = 0 := (pte_onePage u).trans (if_neg (by omega))
  have start : 1023 * PGSIZE / PGSIZE = 1023 := by decide
  have count : pages (1023 * PGSIZE + 2 * PGSIZE) - 1023 = 2 := by decide
  obtain ⟨m',answer,_,finds,_⟩ := mappages_maps never (1023 * PGSIZE) (2 * PGSIZE) 5 PTE_W (owned_onePageFree.supplied region_onePageFree)
    (fun _ => rfl) (by decide) (by decide) (by decide) (by decide) (fun u from' _ => by rw [absent u (by omega)]; rfl)
    (by rw [start,count]; exact few.trans (free.trans (Nat.le_add_right ..)))
  exact ⟨m',answer,by rw [pdes 1 (by decide)]; rfl,finds _ (by decide),finds _ (by decide)⟩

/-- Exactly the pages from `v` up to `w` are taken out, and the frames that they had are freed, each once. -/
structure Freed (m m' : Mem) (d v w : Nat) : Prop where
  absent : ∀ u, v ≤ u → u < w → isPresent (m'.pte d u) = false
  frames : ∃ freed : List Nat, m'.freelist = freed ++ m.freelist ∧ freed.Nodup ∧
    (∀ x, x ∈ freed ↔ ∃ u, (v ≤ u ∧ u < w) ∧ own (m.pte d u) = some x) ∧ ∀ x, x ∉ m.tables d → x ∉ freed → m'.page x = m.page x
  dir : m'.page d = m.page d
  others : ∀ u < 2 ^ 20, ¬(v ≤ u ∧ u < w) → m'.pte d u = m.pte d u

theorem Deallocated.freed {v w : Nat} {cleared : Nat → Prop} (after : Deallocated m m' d cleared) (separate : Separate m d) (user : w ≤ USERPAGES)
    (range : ∀ u, cleared u ↔ (v ≤ u ∧ u < w) ∧ isPresent (m.pte d u) = true) : Freed m m' d v w := by
  obtain ⟨⟨freed,list,frames,kept⟩,dir,zero,same⟩ := after
  have inside (u : Nat) (before : u < w) : u < 2 ^ 20 := lt_of_user (before.trans_le user)
  have once : (m.frames d).Nodup := Multiset.nodup_iff_count_le_one.mpr separate.once
  have others (u : Nat) (low : u < 2 ^ 20) (outside : ¬(v ≤ u ∧ u < w)) : m'.pte d u = m.pte d u :=
    same u low fun there => outside ((range u).mp there).1
  rw [← frames] at once
  obtain ⟨onceFreed,_,apart⟩ := Multiset.nodup_add.mp once
  refine ⟨fun u from' before => ?_,⟨freed,list,onceFreed,fun x => ⟨fun isFreed => ?_,?_⟩,kept⟩,dir,others⟩
  · by_cases there : cleared u
    · rw [zero u (inside u before) there]
      rfl
    · rw [same u (inside u before) there]
      simpa [range,from',before] using there
  · have isFrame : x ∈ m.frames d := by
      rw [← frames]
      exact Multiset.mem_add.mpr (.inl isFreed)
    obtain ⟨u,low,present,isX⟩ := mem_frames.mp isFrame
    refine ⟨u,by_contra fun outside => Multiset.disjoint_left.mp apart isFreed ?_,own_eq_some.mpr ⟨present,isX⟩⟩
    refine mem_frames.mpr ⟨u,low,?_,?_⟩ <;> rwa [others u (lt_of_user low) outside]
  · rintro ⟨u,between,refers⟩
    obtain ⟨present,isX⟩ := own_eq_some.mp refers
    have low : u < USERPAGES := between.2.trans_le user
    have isFrame : x ∈ m.frames d := mem_frames.mpr ⟨u,low,present,isX⟩
    rw [← frames] at isFrame
    refine (Multiset.mem_add.mp isFrame).resolve_right fun left => ?_
    -- a page that still has the frame is the same page, whose entry is 0
    obtain ⟨u',low',present',isX'⟩ := mem_frames.mp left
    have notCleared : ¬cleared u' := fun there => by
      rw [zero u' (lt_of_user low') there] at present'
      cases present'
    rw [same u' (lt_of_user low') notCleared] at present' isX'
    rw [frames] at once
    have isU := frame_inj once low' low present' present (isX'.trans isX.symm)
    exact notCleared ((range u').mpr (isU ▸ ⟨between,present⟩))

/-- `deallocuvm` returns the smaller size, and frees exactly the pages between the two, if and only if none of them is jumped over. -/
theorem deallocuvm_exact (env : Env) (oldsz newsz : Nat) (separate : Separate m d) (low : oldsz ≤ KERNBASE) :
    ∃ m', Prog.exec (handle env) (deallocuvm d oldsz newsz) m = .ok (min oldsz newsz,m') ∧
      (Freed m m' d (pages newsz) (pages oldsz) ↔
        ∀ u, pages newsz ≤ u → u < pages oldsz → isPresent (m.pte d u) = true → ¬Skipped m d (pages newsz) u) := by
  have run : Wp (checked (fun _ _ _ _ => True) env) (fun _ => False) (deallocuvm d oldsz newsz)
      (fun r m' => r = min oldsz newsz ∧ Deallocated m m' d (Cleared m d (pages newsz) (pages oldsz))) m :=
    wp_deallocuvm_by low separate fun m' after => ⟨rfl,after⟩
  rw [checked_true] at run
  obtain ⟨r,m',answer,rfl,after⟩ := wp_returns run
  refine ⟨m',answer,fun freed u from' before present skipped => ?_,fun none => ?_⟩
  · have gone := freed.absent u from' before
    rw [after.same u (lt_of_user (before.trans_le (pages_le low))) fun there => there.2.2 skipped,present] at gone
    cases gone
  · refine after.freed separate (pages_le low) fun u => ⟨fun there => ⟨there.1,there.2.1⟩,fun ⟨between,present⟩ => ⟨between,present,?_⟩⟩
    exact none u between.1 between.2 present

theorem deallocuvm_exact_onePage : ∃ m', Prog.exec (handle never) (deallocuvm 0x200 PGSIZE 0) onePage = .ok (0,m') ∧ Freed onePage m' 0x200 0 1 := by
  obtain ⟨m',answer,exact⟩ := deallocuvm_exact never PGSIZE 0 (owned_onePage.separate region_threePages) (by decide)
  exact ⟨m',answer,exact.mpr fun u _ _ _ => Steady.not_skipped (.inl rfl) (Nat.zero_le u)⟩

def farPage : Mem where
  page x :=
    if x = 0x200 then (Bytes.zero PGSIZE).setWord 1 (mkPte 0x201 (PTE_W + PTE_U))
    else if x = 0x201 then (Bytes.zero PGSIZE).setWord 0 (mkPte 0x202 (PTE_W + PTE_U))
    else Bytes.zero PGSIZE
  freelist := []
  calls := 0

theorem pde_farPage (i : Nat) : farPage.pde 0x200 i = if i = 1 then mkPte 0x201 (PTE_W + PTE_U) else 0 :=
  word_single (by decide) (by decide) i

theorem pte_farPage (u : Nat) : farPage.pte 0x200 u = if u = 1024 then mkPte 0x202 (PTE_W + PTE_U) else 0 := by
  rw [Mem.pte,pde_farPage]
  by_cases second : u / NPTENTRIES = 1
  · rw [if_pos second,if_pos (by decide)]
    refine (word_single (by decide) (by decide) _).trans (if_congr ?_ rfl rfl)
    simp only [NPTENTRIES] at *
    omega
  · have other : u ≠ 1024 := by
      rintro rfl
      exact second rfl
    rw [if_neg second,if_neg other]
    rfl

/-- The loop goes from page 1 to page 1025, and page 1024 stays. -/
theorem deallocuvm_jumps : Separate farPage 0x200 ∧
    ∃ m', Prog.exec (handle never) (deallocuvm 0x200 (PGSIZE * 1025) PGSIZE) farPage = .ok (PGSIZE,m') ∧
      isPresent (m'.pte 0x200 1024) = true := by
  have separate := (owned_single rfl (by decide) (by decide) pde_farPage pte_farPage).separate region_threePages
  have run : Wp (checked (fun _ _ _ _ => True) never) (fun _ => False) (deallocuvm 0x200 (PGSIZE * 1025) PGSIZE)
      (fun r m' => r = PGSIZE ∧ isPresent (m'.pte 0x200 1024) = true) farPage := by
    refine wp_deallocuvm_by (by decide) separate fun m' after => ⟨rfl,?_⟩
    have skipped : Skipped farPage 0x200 1 1024 := ⟨by decide,fun i _ below => by rw [pde_farPage,if_neg (by simp only [NPTENTRIES] at below; omega)]; rfl⟩
    rw [after.same 1024 (by decide) fun there => there.2.2 skipped,pte_farPage]
    rfl
  rw [checked_true] at run
  obtain ⟨r,m',answer,rfl,still⟩ := wp_returns run
  exact ⟨separate,m',answer,still⟩

end Osce.Vm
