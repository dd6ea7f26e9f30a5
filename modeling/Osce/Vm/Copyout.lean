import Osce.Vm.Stack

/-!
`copyout` over a page directory of any shape. Where `walkpgdir` finds no page table, `uva2ka`
follows the null pointer that it got, and the word it tests is one of the process that runs.
-/
namespace Osce.Vm
open Osce.Lib Prog

variable {env : Env} {m m' m'' : Mem} {d cur va : Nat} {p : List UInt8}

def Access (m : Mem) (d u : Nat) : Prop := isPresent (m.pte d u) = true ∧ isUser (m.pte d u) = true

def frame (m : Mem) (d u : Nat) : Nat := PTE_ADDR (m.pte d u)

def byte (m : Mem) (d a : Nat) : UInt8 := (m.page (frame m d (a / PGSIZE))).get (a % PGSIZE)

theorem page_lt_of {a : Nat} (small : a < 2 ^ 32) : a / PGSIZE < 2 ^ 20 := by
  simp only [PGSIZE]
  omega

/-- The pages that the user may access are different ones, which the kernel may write to, and none is part of the page tables. -/
structure Accessible (m : Mem) (d : Nat) : Prop where
  once : ∀ u < 2 ^ 20, ∀ w < 2 ^ 20, Access m d u → Access m d w → frame m d u = frame m d w → u = w
  writes : ∀ u < 2 ^ 20, Access m d u → writable (frame m d u) = true
  apart : ∀ u < 2 ^ 20, Access m d u → frame m d u ≠ d ∧ frame m d u ∉ m.tables d

structure CopiedTo (m m' : Mem) (d va : Nat) (p : List UInt8) (k : Nat) : Prop where
  others : ∀ x, (∀ u < 2 ^ 20, Access m d u → x ≠ frame m d u) → m'.page x = m.page x
  free : m'.freelist = m.freelist
  bytes : ∀ a < 2 ^ 32, Access m d (a / PGSIZE) → byte m' d a = if va ≤ a ∧ a < va + k then p.getD (a - va) 0 else byte m d a

section
variable (accessible : Accessible m d)
include accessible

theorem Accessible.kept (others : ∀ x, (∀ u < 2 ^ 20, Access m d u → x ≠ frame m d u) → m'.page x = m.page x) :
    m'.page d = m.page d ∧ ∀ u < 2 ^ 20, m'.pte d u = m.pte d u := by
  have dir := others d fun u inside there => (accessible.apart u inside there).1.symm
  refine ⟨dir,fun u inside => pte_congr dir (fun x isTable => others x fun w low there isFrame => ?_) inside⟩
  exact (accessible.apart w low there).2 (isFrame ▸ isTable)

theorem CopiedTo.store {i n u : Nat} (copied : CopiedTo m m' d va p i) (inside : u < 2 ^ 20) (there : Access m d u) (from' : PGSIZE * u ≤ va + i)
    (fits : va + i + n ≤ PGSIZE * (u + 1)) (few : i + n ≤ p.length) :
    CopiedTo m (m'.setPage (frame m d u) ((m'.page (frame m d u)).write (va + i - PGSIZE * u) ((p.drop i).take n))) d va p (i + n) := by
  have length : ((p.drop i).take n).length = n := by
    rw [List.length_take,List.length_drop]
    omega
  have others (x : Nat) (other : ∀ u < 2 ^ 20, Access m d u → x ≠ frame m d u) :=
    (setPage_other m' ((m'.page (frame m d u)).write (va + i - PGSIZE * u) ((p.drop i).take n)) (other u inside there)).trans (copied.others x other)
  refine ⟨others,copied.free,fun a small there' => ?_⟩
  have old := copied.bytes a small there'
  rw [byte,frame,(accessible.kept copied.others).2 _ (page_lt_of small)] at old
  have same := congrArg PTE_ADDR ((accessible.kept others).2 _ (page_lt_of small))
  rw [byte,show frame _ d _ = frame m d _ from same]
  have split := Nat.div_add_mod a PGSIZE
  by_cases isU : a / PGSIZE = u
  · rw [isU] at split old ⊢
    rw [setPage_same,Bytes.get_write _ _ _ _ (Nat.mod_lt _ (by decide)),length,frame,old]
    by_cases new : va + i ≤ a ∧ a < va + i + n
    · rw [if_pos (by omega),if_pos (by omega),List.getD_eq_getElem?_getD,List.getElem?_take_of_lt (by omega),List.getElem?_drop,
        List.getD_eq_getElem?_getD,show i + (a % PGSIZE - (va + i - PGSIZE * u)) = a - va by omega]
    · rw [if_neg (by omega)]
      exact if_congr (by omega) rfl rfl
  · have other : frame m d (a / PGSIZE) ≠ frame m d u := fun sameFrame =>
      isU (accessible.once _ (page_lt_of small) u inside there' there sameFrame)
    rw [setPage_other _ _ other,frame,old]
    refine if_congr ?_ rfl rfl
    simp only [PGSIZE] at *
    omega

end

def reads (d : Nat) (T : Multiset Nat) : VmOp → Mem → Prop
  | .entry x _, _ => x = d ∨ x ∈ T
  | _, _ => True

/-- The machine that stops where another entry is read. -/
noncomputable def watched (d : Nat) (T : Multiset Nat) (env : Env) : Handler VmSig Mem := guarded (reads d T) (handle env)

section
variable {T : Multiset Nat} {E : Stop → Prop}

theorem wp_watched_entry {Q : Nat → Mem → Prop} {x i : Nat} (allowed : x = d ∨ x ∈ T) :
    Wp (watched d T env) E (perform (.entry x i)) Q m ↔ Q ((m.page x).word i) m := wp_guarded allowed

theorem wp_watched_uva2ka {Q : Option Nat → Mem → Prop} (tables : m.tables d = T) (other : cur ≠ d) (notTable : cur ∉ T) (small : va < 2 ^ 32)
    (missing : isPresent (m.pde d (va / PGSIZE / NPTENTRIES)) = false → E (.panic "guard"))
    (found : isPresent (m.pde d (va / PGSIZE / NPTENTRIES)) = true →
      (Access m d (va / PGSIZE) → Q (some (frame m d (va / PGSIZE))) m) ∧ (¬Access m d (va / PGSIZE) → Q none m)) :
    Wp (watched d T env) E (uva2ka cur d va) Q m := by
  rw [uva2ka,wp_bind,walkpgdir,wp_bind,wp_watched_entry (.inl rfl),PDX_eq small]
  show Wp _ _ (if isPresent (m.pde d (va / PGSIZE / NPTENTRIES)) then _ else _) _ _
  by_cases table : isPresent (m.pde d (va / PGSIZE / NPTENTRIES)) = true
  · rw [if_pos table]
    show Wp _ _ (perform (.entry (pteAt m d (va / PGSIZE)).1 (pteAt m d (va / PGSIZE)).2) >>= _) _ _
    rw [wp_bind,wp_watched_entry (.inr (tables ▸ mem_tables.mpr ⟨_,index_lt (page_lt_of small),table,rfl⟩))]
    rw [word_pteAt table]
    by_cases there : Access m d (va / PGSIZE)
    · rw [there.1,there.2]
      exact (found table).1 there
    · rw [if_neg (by rw [Bool.and_eq_true]; exact there)]
      exact (found table).2 there
  · rw [if_neg table]
    -- the null pointer is followed
    have refused : ¬reads d T (.entry cur (PDX 0)) m := fun allowed => allowed.elim other notTable
    show Wp _ _ (Prog.call (S := VmSig) (VmOp.entry cur (PDX 0)) _) _ _
    rw [wp_call,watched,guarded,if_neg refused]
    exact missing (by simpa using table)

end

def Reached (m : Mem) (d va len : Nat) : Prop :=
  ∀ a, va ≤ a → a < va + len → (∀ b, va ≤ b → b < PGROUNDDOWN a → Access m d (b / PGSIZE)) → isPresent (m.pde d (a / PGSIZE / NPTENTRIES)) = true

def Everywhere (m : Mem) (d va len : Nat) : Prop := ∀ a, va ≤ a → a < va + len → Access m d (a / PGSIZE)

theorem Everywhere.reached {len : Nat} (all : Everywhere m d va len) : Reached m d va len :=
  fun a from' before _ => table_of_present (all a from' before).1

def Outcome (m m' : Mem) (d va : Nat) (p : List UInt8) (r : Int) : Prop :=
  r = 0 ∧ Everywhere m d va p.length ∧ CopiedTo m m' d va p p.length ∨ r = -1 ∧ ¬Everywhere m d va p.length ∧ ∃ k ≤ p.length, CopiedTo m m' d va p k

theorem wp_watched_copyout (accessible : Accessible m d) (other : cur ≠ d) (notTable : cur ∉ m.tables d) (noWrap : va + p.length ≤ 2 ^ 32)
    (turns : Nat) {i : Nat} (before : i ≤ p.length) (enough : p.length ≤ i + turns) (passed : Everywhere m d va i) (copied : CopiedTo m m' d va p i) :
    Wp (watched d (m.tables d) env) (fun _ => ¬Reached m d va p.length) (copyout_from cur d turns (va + i) (p.drop i))
      (fun r m'' => Reached m d va p.length ∧ Outcome m m'' d va p r) m' := by
  by_cases whole : p.length = i
  · rw [List.drop_of_length_le (by omega),copyout_from_nil]
    rw [← whole] at passed copied
    exact ⟨passed.reached,.inl ⟨rfl,passed,copied⟩⟩
  induction turns generalizing i m' with
  | zero => omega
  | succ turns ih =>
    have down : PGROUNDDOWN (va + i) = PGSIZE * ((va + i) / PGSIZE) := Nat.mul_comm ..
    have start : PGSIZE * ((va + i) / PGSIZE) ≤ va + i := Nat.mul_div_le ..
    have number : PGSIZE * ((va + i) / PGSIZE) / PGSIZE = (va + i) / PGSIZE := Nat.mul_div_cancel_left _ (by decide)
    have inside : (va + i) / PGSIZE < 2 ^ 20 := page_lt_of (by omega)
    obtain ⟨dir,ptes⟩ := accessible.kept copied.others
    have more : (p.drop i).length > 0 := by
      rw [List.length_drop]
      omega
    rw [copyout_from,if_pos more,down,wp_bind]
    refine wp_watched_uva2ka (tables_congr dir) other notTable (by omega) (fun missing reached => ?_) fun table => ?_
    · rw [number,pde_congr dir,reached (va + i) (by omega) (by omega) fun b low high => passed b low (by omega)] at missing
      cases missing
    rw [number,pde_congr dir] at table
    rw [number,Access,frame,ptes _ inside]
    constructor
    swap
    · -- the page is not one for the user, and no page behind it is reached
      refine fun not => ⟨fun a from' inRange access => ?_,.inr ⟨rfl,fun all => not (all (va + i) (by omega) (by omega)),i,before,copied⟩⟩
      by_cases early : a < va + i
      · exact passed.reached a from' early access
      by_cases same : a / PGSIZE = (va + i) / PGSIZE
      · rwa [same]
      · refine absurd (access (va + i) (by omega) ?_) not
        simp only [PGROUNDDOWN,PGSIZE] at *
        omega
    intro there
    obtain ⟨n,isN⟩ : ∃ n, min (PGSIZE - (va + i - PGSIZE * ((va + i) / PGSIZE))) (p.drop i).length = n := ⟨_,rfl⟩
    have some' : 0 < n ∧ n ≤ p.length - i ∧ va + i + n ≤ PGSIZE * ((va + i) / PGSIZE + 1) := by
      rw [← isN,List.length_drop]
      simp only [PGSIZE]
      omega
    have ends : p.length = i + n ∨ wrap (PGSIZE * ((va + i) / PGSIZE) + PGSIZE) = va + (i + n) := by
      rw [← isN,List.length_drop]
      simp only [wrap,PGSIZE]
      omega
    have copied' := copied.store accessible inside there start some'.2.2 (by omega)
    show Wp _ _ (perform (.store (frame m d ((va + i) / PGSIZE)) (va + i - PGSIZE * ((va + i) / PGSIZE))
      ((p.drop i).take (min (PGSIZE - (va + i - PGSIZE * ((va + i) / PGSIZE))) (p.drop i).length))) >>= _) _ _
    rw [isN,wp_bind,watched,wp_guarded trivial,handle,if_pos (accessible.writes _ inside there)]
    have passed' : Everywhere m d va (i + n) := fun a from' inRange => by
      by_cases early : a < va + i
      · exact passed a from' early
      · rwa [show a / PGSIZE = (va + i) / PGSIZE by simp only [PGSIZE] at *; omega]
    show Wp (watched d (m.tables d) env) _ (copyout_from cur d turns (wrap (PGSIZE * ((va + i) / PGSIZE) + PGSIZE)) ((p.drop i).drop n)) _ _
    rw [List.drop_drop]
    by_cases whole' : p.length = i + n
    · rw [List.drop_of_length_le (by omega),copyout_from_nil]
      rw [← whole'] at passed' copied'
      exact ⟨passed'.reached,.inl ⟨rfl,passed',copied'⟩⟩
    · rw [ends.resolve_left whole']
      exact ih (by omega) (by omega) passed' copied' whole'

/-- `copyout` follows no null pointer and does what it says, if and only if the page tables are there for all pages that it comes to. -/
theorem copyout_guarded (env : Env) (cur va : Nat) (p : List UInt8) (accessible : Accessible m d) (noWrap : va + p.length ≤ 2 ^ 32)
    (other : cur ≠ d) (notTable : cur ∉ m.tables d) :
    (∃ r m', Prog.exec (watched d (m.tables d) env) (copyout cur d va p) m = .ok (r,m') ∧ (r = 0 ↔ Everywhere m d va p.length) ∧
      (r = 0 → CopiedTo m m' d va p p.length) ∧ (r ≠ 0 → r = -1 ∧ ∃ k ≤ p.length, CopiedTo m m' d va p k)) ↔ Reached m d va p.length := by
  have run : Wp (watched d (m.tables d) env) _ (copyout_from cur d p.length (va + 0) (p.drop 0)) _ m :=
    wp_watched_copyout accessible other notTable noWrap p.length (Nat.zero_le _) (by omega) (fun a from' before => by omega)
      ⟨fun _ _ => rfl,rfl,fun a _ _ => by rw [if_neg (by omega)]⟩
  rw [Nat.add_zero,List.drop_zero] at run
  rw [copyout]
  unfold Wp at run
  cases answer : Prog.exec (watched d (m.tables d) env) (copyout_from cur d p.length va p) m with
  | error e =>
    rw [answer] at run
    refine ⟨?_,fun reached => absurd reached run⟩
    rintro ⟨_,_,returns,_⟩
    cases returns
  | ok result =>
    rw [answer] at run
    refine ⟨fun _ => run.1,fun _ => ⟨result.1,result.2,rfl,?_⟩⟩
    rcases run.2 with ⟨zero,all,copied⟩ | ⟨failed,not,partly⟩
    · exact ⟨by simp only [zero,all],fun _ => copied,fun no => absurd zero no⟩
    · have notZero : result.1 ≠ 0 := by
        rw [failed]
        decide
      exact ⟨⟨fun zero => absurd zero notZero,fun all => absurd all not⟩,fun zero => absurd zero notZero,fun _ => ⟨failed,partly⟩⟩

theorem access_onePage {u : Nat} (there : Access onePage 0x200 u) : u = 0 := by
  by_contra other
  have present := there.1
  rw [pte_onePage,if_neg other] at present
  cases present

theorem notTable_onePage {x : Nat} (other : x ≠ 0x201) : x ∉ onePage.tables 0x200 := by
  intro isTable
  obtain ⟨i,_,present,isX⟩ := mem_tables.mp isTable
  rw [pde_onePage] at present isX
  split at present
  · rename_i first
    rw [if_pos first] at isX
    exact other isX.symm
  · cases present

theorem accessible_onePage : Accessible onePage 0x200 := by
  have isFrame {u : Nat} (there : Access onePage 0x200 u) : frame onePage 0x200 u = 0x202 := by
    rw [access_onePage there,frame,pte_onePage]
    rfl
  refine ⟨fun u _ w _ first second _ => (access_onePage first).trans (access_onePage second).symm,fun u _ there => by rw [isFrame there]; rfl,
    fun u _ there => ?_⟩
  rw [isFrame there]
  exact ⟨by decide,notTable_onePage (by decide)⟩

theorem copyout_guarded_onePage : ∃ r m', Prog.exec (watched 0x200 (onePage.tables 0x200) never) (copyout 0x300 0x200 100 [1,2,3]) onePage = .ok (r,m') ∧
    r = 0 ∧ CopiedTo onePage m' 0x200 100 [1,2,3] 3 := by
  have first (a : Nat) (low : a < PGSIZE) : Access onePage 0x200 (a / PGSIZE) := by
    rw [Nat.div_eq_of_lt low,Access,pte_onePage]
    exact ⟨rfl,rfl⟩
  have below (a : Nat) (before : a < 100 + [(1 : UInt8),2,3].length) : a < PGSIZE := Nat.lt_trans before (by decide)
  obtain ⟨r,m',answer,zero,copied,_⟩ := (copyout_guarded never 0x300 100 [1,2,3] accessible_onePage (by decide) (by decide)
    (notTable_onePage (by decide))).mpr fun a _ before _ => table_of_present (first a (below a before)).1
  have isZero := zero.mpr fun a _ before => first a (below a before)
  exact ⟨r,m',answer,isZero,copied isZero⟩

/-- There is no page table for the second 4 MB; the process that runs has no page 0. -/
theorem copyout_follows_null : Accessible onePage 0x200 ∧
    Prog.exec (handle never) (copyout 0x300 0x200 (PGSIZE * 1024) [1]) onePage = .error (.panic "trap") := by
  refine ⟨accessible_onePage,?_⟩
  have run : Wp (checked (fun _ _ _ _ => True) never) (· = .panic "trap") (copyout 0x300 0x200 (PGSIZE * 1024) [1]) (fun _ _ => False) onePage := by
    show Wp _ _ (uva2ka 0x300 0x200 (PGROUNDDOWN (PGSIZE * 1024)) >>= _) _ _
    rw [wp_bind,uva2ka,wp_bind,wp_walk (by decide),pde_onePage,if_neg (by decide)]
    show Wp _ _ (loadNull 0x300 >>= _) _ _
    have empty : onePage.pde 0x300 (0 / PGSIZE / NPTENTRIES) = 0 := Bytes.word_zero _
    rw [wp_bind,loadNull,wp_bind,wp_walk (by decide),empty,if_neg (by decide)]
    exact wp_panic.mpr rfl
  rw [checked_true] at run
  obtain ⟨_,answer,rfl⟩ := wp_stops run
  exact answer

end Osce.Vm
