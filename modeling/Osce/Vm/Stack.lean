import Osce.Vm.Exec
import Osce.Vm.Machine

/-!
The stack that `exec` builds. Strings, the copy of `EXIT_BEGIN` and the words are pushed with `copyout`, each below what was
pushed before, and nothing but the page below the stack, which `uva2ka` refuses, stops the stack pointer: a `copyout` that
returns 0 has stayed in the page of the stack.
-/
namespace Osce.Vm
open Osce.Lib Prog List

variable {ok : Nat → Nat → Nat → Mem → Prop} {env : Env} {E : Stop → Prop} {All R : Multiset Nat} {m m' m'' : Mem} {d g x sz : Nat}

def stackPage (m : Mem) (d g : Nat) : Page := m.page (PTE_ADDR (m.pte d (g + 1)))

theorem pages_mul (n : Nat) : pages (PGSIZE * n) = n := by
  simp only [pages,PGSIZE]
  omega

section
variable (stack : Stack All R m d g)
include stack

theorem Stack.top : g + 1 < USERPAGES := by
  have := stack.space.low
  simp only [USERPAGES,KERNBASE,PGSIZE] at *
  omega

theorem Stack.present {u : Nat} (below : u < g + 2) : isPresent (m.pte d u) = true := by
  have := stack.top
  exact (stack.space.mapped u (by omega)).mpr (by rwa [pages_mul])

theorem Stack.stored (reg : Region All) (stored : Stored m m' d) : Stack All R m' d g := by
  have top := stack.top
  have limit : USERPAGES ≤ 2 ^ 20 := by decide
  refine ⟨stored.space stack.space reg,?_,?_⟩
  · rw [stored.pte stack.space.owned reg g (by omega)]
    exact stack.guard
  · rw [stored.pte stack.space.owned reg (g + 1) (by omega)]
    exact stack.user

end

theorem wp_uva2ka_mapped {Q : Option Nat → Mem → Prop} {cur va : Nat} (small : va < 2 ^ 32) (present : isPresent (m.pte d (va / PGSIZE)) = true) :
    Wp (checked ok env) E (uva2ka cur d va) Q m ↔
      Q (if isUser (m.pte d (va / PGSIZE)) then some (PTE_ADDR (m.pte d (va / PGSIZE))) else none) m := by
  have table := table_of_present present
  rw [uva2ka,wp_bind,wp_walk small,if_pos table]
  show Wp _ _ (perform (.entry (pteAt m d (va / PGSIZE)).1 (pteAt m d (va / PGSIZE)).2) >>= _) _ _ ↔ _
  rw [wp_bind,wp_entry,word_pteAt table,present,Bool.true_and]
  split
  · exact Iff.rfl
  · exact Iff.rfl

theorem copyout_from_nil (cur d turns va : Nat) : copyout_from cur d turns va [] = pure 0 := by
  cases turns with
  | zero => rfl
  | succ turns => rfl

theorem wp_copyout_stack {Q : Int → Mem → Prop} {cur va : Nat} {p : List UInt8} (reg : Region All) (stack : Stack All R m d g)
    (above : PGSIZE * (g + 1) ≤ va) (inside : va + p.length ≤ PGSIZE * (g + 2)) (some : p ≠ [])
    (done : ∀ m', Stored m m' d → stackPage m' d g = (stackPage m d g).write (va - PGSIZE * (g + 1)) p → Q 0 m') :
    Wp (checked ok env) E (copyout cur d va p) Q m := by
  have top := stack.top
  have positive : 0 < p.length := length_pos_iff.mpr some
  have down : PGROUNDDOWN va = PGSIZE * (g + 1) := by
    simp only [PGROUNDDOWN,PGSIZE] at *
    omega
  have number : PGROUNDDOWN va / PGSIZE = g + 1 := by rw [down,Nat.mul_div_cancel_left _ (by decide)]
  have small : PGROUNDDOWN va < 2 ^ 32 := by
    have := stack.space.low
    simp only [down,KERNBASE,PGSIZE] at *
    omega
  have whole : min (PGSIZE - (va - PGROUNDDOWN va)) p.length = p.length := by
    rw [down]
    simp only [PGSIZE] at *
    omega
  have isFrame : PTE_ADDR (m.pte d (g + 1)) ∈ m.frames d := mem_frames.mpr ⟨_,top,stack.present (by omega),rfl⟩
  obtain ⟨turns,isTurns⟩ : ∃ turns, p.length = turns + 1 := ⟨p.length - 1,by omega⟩
  rw [copyout,isTurns,copyout_from,if_pos positive,wp_bind,wp_uva2ka_mapped small (by rw [number]; exact stack.present (by omega)),number,
    if_pos stack.user]
  show Wp _ _ (perform (.store (PTE_ADDR (m.pte d (g + 1))) (va - PGROUNDDOWN va) (p.take (min (PGSIZE - (va - PGROUNDDOWN va)) p.length))) >>= _) _ _
  rw [wp_bind,wp_op (by exact trivial),handle,if_pos (frame_writable stack.space.owned reg isFrame),whole,drop_length,copyout_from_nil,
    take_length,down]
  have stored := stored_setPage isFrame ((m.page (PTE_ADDR (m.pte d (g + 1)))).write (va - PGSIZE * (g + 1)) p)
  refine done _ stored ?_
  rw [stackPage,stored.pte stack.space.owned reg (g + 1) (lt_of_user top)]
  exact setPage_same ..

/-- A run of bytes that begins below the page of the stack and reaches into the page under it, or beyond, is refused. -/
theorem wp_copyout_from_guard {Q : Int → Mem → Prop} {cur : Nat} (reg : Region All) (turns : Nat) {va : Nat} {p : List UInt8}
    (stack : Stack All R m d g) (enough : p.length ≤ turns) (some : 0 < p.length) (under : va < PGSIZE * (g + 1))
    (into : PGSIZE * g < va + p.length) (done : ∀ m', Stored m m' d → Q (-1) m') :
    Wp (checked ok env) E (copyout_from cur d turns va p) Q m := by
  induction turns generalizing m va p with
  | zero => omega
  | succ turns ih =>
    have top := stack.top
    have page : PGROUNDDOWN va / PGSIZE = va / PGSIZE := by
      simp only [PGROUNDDOWN,PGSIZE]
      omega
    have down : PGROUNDDOWN va ≤ va := Nat.div_mul_le_self ..
    have low := stack.space.low
    have upTo : va / PGSIZE ≤ g := by
      simp only [PGSIZE] at *
      omega
    have small : PGROUNDDOWN va < 2 ^ 32 := by
      simp only [PGSIZE,KERNBASE] at *
      omega
    have present : isPresent (m.pte d (va / PGSIZE)) = true := stack.present (by omega)
    rw [copyout_from,if_pos some,wp_bind,wp_uva2ka_mapped small (by rwa [page]),page]
    by_cases user : isUser (m.pte d (va / PGSIZE)) = true
    swap
    · rw [if_neg user]
      exact done m (.refl m d)
    rw [if_pos user]
    have below : va / PGSIZE < g := by
      refine lt_of_le_of_ne upTo fun isGuard => ?_
      rw [isGuard,stack.guard] at user
      cases user
    have isFrame : PTE_ADDR (m.pte d (va / PGSIZE)) ∈ m.frames d := mem_frames.mpr ⟨_,by omega,present,rfl⟩
    show Wp _ _ (perform (.store (PTE_ADDR (m.pte d (va / PGSIZE))) (va - PGROUNDDOWN va) (p.take (min (PGSIZE - (va - PGROUNDDOWN va)) p.length))) >>= _) _ _
    rw [wp_bind]
    refine wp_store stack.space.owned reg isFrame fun m₁ stored => ?_
    have next : wrap (PGROUNDDOWN va + PGSIZE) = PGSIZE * (va / PGSIZE + 1) := by
      simp only [wrap,PGROUNDDOWN,PGSIZE,KERNBASE] at *
      omega
    -- what is left starts at the next page, which is not above the guard
    refine ih (stack.stored reg stored) ?_ ?_ ?_ ?_ fun m' stored' => done m' (stored.trans stack.space.owned reg stored')
    · rw [length_drop]
      simp only [PGROUNDDOWN,PGSIZE] at *
      omega
    · rw [length_drop]
      simp only [PGROUNDDOWN,PGSIZE] at *
      omega
    · rw [next]
      simp only [PGSIZE] at *
      omega
    · rw [next,length_drop]
      simp only [PGROUNDDOWN,PGSIZE] at *
      omega

theorem wp_copyout_guard {Q : Int → Mem → Prop} {cur va : Nat} {p : List UInt8} (reg : Region All) (stack : Stack All R m d g)
    (some : 0 < p.length) (under : va < PGSIZE * (g + 1)) (into : PGSIZE * g < va + p.length) (done : ∀ m', Stored m m' d → Q (-1) m') :
    Wp (checked ok env) E (copyout cur d va p) Q m :=
  wp_copyout_from_guard reg _ stack (le_refl _) some under into done

def need (arg : List UInt8) : Nat := (arg.length + 1 + 3) / 4 * 4

def needs (argv : List (List UInt8)) : Nat := (argv.map need).sum

theorem needs_cons (arg : List UInt8) (argv : List (List UInt8)) : needs (arg :: argv) = need arg + needs argv := by
  simp [needs]

def spots : Nat → List (List UInt8) → List Nat
  | _, [] => []
  | sp, arg :: argv => (sp - need arg) :: spots (sp - need arg) argv

theorem length_spots (sp : Nat) (argv : List (List UInt8)) : (spots sp argv).length = argv.length := by
  induction argv generalizing sp with
  | nil => rfl
  | cons arg argv ih => simp [spots,ih]

theorem spots_range {sp : Nat} {argv : List (List UInt8)} (fits : needs argv ≤ sp) {a : Nat} {arg : List UInt8} (member : (a,arg) ∈ (spots sp argv).zip argv) :
    sp - needs argv ≤ a ∧ a + (arg.length + 1) ≤ sp := by
  induction argv generalizing sp with
  | nil => cases member
  | cons first argv ih =>
    rw [needs_cons] at fits ⊢
    rw [spots,zip_cons_cons,mem_cons] at member
    have enough : first.length + 1 ≤ need first := by
      rw [need]
      omega
    rcases member with isFirst | later
    · obtain ⟨rfl,rfl⟩ := Prod.mk.inj isFirst
      omega
    · have := ih (by omega) later
      omega

/-- The strings are on the stack: their bytes are in the page of the stack, whose base is `base`. -/
def Strings (pg : Page) (base sp : Nat) (argv : List (List UInt8)) : Prop :=
  ∀ a arg, (a,arg) ∈ (spots sp argv).zip argv → pg.read (a - base) (arg.length + 1) = arg ++ [0]

/-- The loop over the arguments copies every string to its place above the guard, or fails. -/
theorem wp_exec_args_stack {Q : Option (Nat × List Nat) → Mem → Prop} {cur : Nat} (reg : Region All) (argv : List (List UInt8))
    (short : ∀ arg ∈ argv, arg.length < 2 ^ 32 - DEVSPACE) {sp : Nat} {ustack : List Nat} (above : PGSIZE * (g + 1) ≤ sp)
    (below : sp ≤ PGSIZE * (g + 2)) (aligned : sp % 4 = 0) (stack : Stack All R m d g)
    (done : ∀ m', Stored m m' d → PGSIZE * (g + 1) + needs argv ≤ sp → Strings (stackPage m' d g) (PGSIZE * (g + 1)) sp argv →
      (∀ o, sp ≤ PGSIZE * (g + 1) + o → (stackPage m' d g).get o = (stackPage m d g).get o) → ustack.length + argv.length ≤ MAXARG →
      Q (some (sp - needs argv,ustack ++ spots sp argv)) m')
    (few : ustack.length ≤ MAXARG)
    (fail : ∀ m', Stored m m' d → Q none m') : Wp (checked ok env) E (exec_args cur d argv sp ustack) Q m := by
  induction argv generalizing m sp ustack with
  | nil =>
    have := done m (.refl m d) (by simpa [needs] using above) (by intro a arg member; cases member) (fun _ _ => rfl) (by simpa using few)
    rw [exec_args,wp_pure]
    simpa [needs,spots] using this
  | cons arg argv ih =>
    rw [exec_args]
    by_cases full : ustack.length ≥ MAXARG
    · rw [if_pos full]
      exact fail m (.refl m d)
    rw [if_neg full]
    have low := stack.space.low
    have length : (arg ++ [0]).length = arg.length + 1 := by simp
    have target : Target (PGSIZE * (g + 2)) (wrap (sp + (2 ^ 32 - (arg.length + 1))) / 4 * 4) (arg.length + 1) :=
      target_down below low (short arg (mem_cons_self ..)) 4 (.inr rfl)
    have shorter := short arg (mem_cons_self ..)
    dsimp only
    rw [wp_bind]
    by_cases inside : PGSIZE * (g + 1) + need arg ≤ sp
    · have pointer : wrap (sp + (2 ^ 32 - (arg.length + 1))) / 4 * 4 = sp - need arg := by
        simp only [wrap,need,KERNBASE,DEVSPACE,PGSIZE] at *
        omega
      have enough : arg.length + 1 ≤ need arg ∧ need arg % 4 = 0 := by
        rw [need]
        omega
      rw [pointer]
      refine wp_copyout_stack reg stack (by omega) (by rw [length]; omega) (by simp) fun m₁ stored written => ?_
      rw [if_neg (lt_irrefl _)]
      refine ih (fun q member => short q (mem_cons_of_mem _ member)) (by omega) (by omega) (by omega) (stack.stored reg stored)
        (fun m' stored' fits strings same count => ?_) (by simp only [length_append,length_singleton]; omega)
        fun m' stored' => fail m' (stored.trans stack.space.owned reg stored')
      have := done m' (stored.trans stack.space.owned reg stored') (by rw [needs_cons]; omega) ?_ (fun o high => ?_) (by
        simp only [length_append,length_cons,length_nil] at count ⊢
        omega)
      · rw [needs_cons,← Nat.sub_sub] at this
        rwa [append_assoc]
      · intro a q member
        rw [spots,zip_cons_cons,mem_cons] at member
        rcases member with isFirst | later
        · -- what is pushed later is below this string
          obtain ⟨rfl,rfl⟩ := Prod.mk.inj isFirst
          rw [Bytes.read_congr (b := stackPage m₁ d g) fun i _ => same _ (by omega),written,← length,
            Bytes.read_write_same _ _ _ (by rw [length]; simp only [PGSIZE] at *; omega)]
        · exact strings a q later
      · rw [same o (by omega),written,Bytes.get_write_other _ _ _ _ (.inr (by rw [length]; omega))]
    · have failed {r : Int} {m₁ : Mem} (negative : r < 0) (stored : Stored m m₁ d) :
          Wp (checked ok env) E (if r < 0 then pure none else exec_args cur d argv (wrap (sp + (2 ^ 32 - (arg.length + 1))) / 4 * 4)
            (ustack ++ [wrap (sp + (2 ^ 32 - (arg.length + 1))) / 4 * 4])) Q m₁ := by
        rw [if_pos negative]
        exact fail m₁ stored
      rcases target with none | user | ⟨device,high⟩
      · omega
      · -- the string would begin in the guard or below it
        refine wp_copyout_guard reg stack (by omega) ?_ ?_ fun m₁ stored => failed (by decide) stored
        · simp only [wrap,need,KERNBASE,DEVSPACE,PGSIZE] at *
          omega
        · rw [length]
          simp only [wrap,need,KERNBASE,DEVSPACE,PGSIZE] at *
          omega
      · -- the stack pointer has wrapped around
        refine wp_copyout reg low (.inr (.inr ⟨device,high⟩)) stack.space.owned stack.space.mapped stack.space.kernel fun r m₁ stored fit => ?_
        refine failed ?_ stored
        by_contra nonneg
        have := fit (by omega) (by omega)
        simp only [KERNBASE,DEVSPACE] at *
        omega

/-- What `exec` pushes after the strings: the words with the addresses and the code that `main` returns to. -/
structure Words (pg : Page) (base sp : Nat) (strings : List Nat) : Prop where
  stub : pg.read (sp - 16 - base) 16 = EXIT_BEGIN
  words : pg.read (sp - 16 - 4 * (strings.length + 4) - base) (4 * (strings.length + 4)) =
    ([sp - 16,strings.length,sp - 16 - 4 * (strings.length + 4) + 12] ++ strings ++ [0]).flatMap (leBytes 4)

/-- The words are above the guard, or `exec` fails: a failed copy of `EXIT_BEGIN` is followed by a failed copy of the words. -/
theorem wp_exec_push_stack {Q : Option Image → Mem → Prop} {cur entry sp : Nat} {strings : List Nat} (reg : Region All)
    (stack : Stack All R m d g) (above : PGSIZE * (g + 1) ≤ sp) (below : sp ≤ PGSIZE * (g + 2)) (few : strings.length ≤ MAXARG)
    (done : ∀ m', Stored m m' d → PGSIZE * (g + 1) + 16 + 4 * (strings.length + 4) ≤ sp → Words (stackPage m' d g) (PGSIZE * (g + 1)) sp strings →
      (∀ o, sp ≤ PGSIZE * (g + 1) + o → (stackPage m' d g).get o = (stackPage m d g).get o) →
      Q (some ⟨d,PGSIZE * (g + 2),entry,sp - 16 - 4 * (strings.length + 4)⟩) m')
    (fail : ∀ m', Stored m m' d → Q none m') : Wp (checked ok env) E (exec_push cur d (PGSIZE * (g + 2)) entry sp strings) Q m := by
  have low := stack.space.low
  have stubAt : wrap (sp + (2 ^ 32 - 16)) = sp - 16 := by
    simp only [wrap,KERNBASE,PGSIZE] at *
    omega
  have wordsAt : wrap (sp - 16 + (2 ^ 32 - (3 + strings.length + 1) * 4)) = sp - 16 - 4 * (strings.length + 4) := by
    simp only [wrap,KERNBASE,PGSIZE,MAXARG] at *
    omega
  have arrayAt : wrap (sp - 16 + (2 ^ 32 - (strings.length + 1) * 4)) = sp - 16 - 4 * (strings.length + 4) + 12 := by
    simp only [wrap,KERNBASE,PGSIZE,MAXARG] at *
    omega
  have length : (([sp - 16,strings.length,sp - 16 - 4 * (strings.length + 4) + 12] ++ strings ++ [0]).flatMap (leBytes 4)).length =
      4 * (strings.length + 4) := by
    rw [length_words]
    simp only [length_append,length_cons,length_nil]
    omega
  rw [exec_push,stubAt,wp_bind]
  dsimp only
  rw [arrayAt,wordsAt]
  generalize isBytes : ([sp - 16,strings.length,sp - 16 - 4 * (strings.length + 4) + 12] ++ strings ++ [0]).flatMap (leBytes 4) = bytes at length
  have failed {m₁ : Mem} (stored : Stored m m₁ d) (under : sp < PGSIZE * (g + 1) + 16 + 4 * (strings.length + 4)) :
      Wp (checked ok env) E (copyout cur d (sp - 16 - 4 * (strings.length + 4)) bytes >>= fun r =>
        if r < 0 then pure none else pure (some (Image.mk d (PGSIZE * (g + 2)) entry (sp - 16 - 4 * (strings.length + 4))))) Q m₁ := by
    rw [wp_bind]
    refine wp_copyout_guard reg (stack.stored reg stored) (by omega) ?_ ?_ fun m₂ stored₂ => ?_
    · simp only [PGSIZE,MAXARG] at *
      omega
    · rw [length]
      simp only [PGSIZE,MAXARG] at *
      omega
    · rw [if_pos (by decide)]
      exact fail m₂ (stored.trans stack.space.owned reg stored₂)
  have code : EXIT_BEGIN.length = 16 := rfl
  by_cases stubFits : PGSIZE * (g + 1) + 16 ≤ sp
  swap
  · refine wp_copyout reg low (.inr (.inl (by rw [code]; simp only [PGSIZE] at *; omega))) stack.space.owned stack.space.mapped stack.space.kernel
      fun _ m₁ stored _ => ?_
    exact failed stored (by omega)
  refine wp_copyout_stack reg stack (by omega) (by rw [code]; omega) (by decide) fun m₁ stored₁ written₁ => ?_
  by_cases wordsFit : PGSIZE * (g + 1) + 16 + 4 * (strings.length + 4) ≤ sp
  swap
  · exact failed stored₁ (by omega)
  have nonempty : bytes ≠ [] := by
    rintro rfl
    simp at length
  rw [wp_bind]
  refine wp_copyout_stack reg (stack.stored reg stored₁) (by omega) (by rw [length]; omega) nonempty fun m₂ stored₂ written₂ => ?_
  rw [if_neg (lt_irrefl _)]
  refine done m₂ (stored₁.trans stack.space.owned reg stored₂) wordsFit ⟨?_,?_⟩ fun o high => ?_
  · rw [written₂,Bytes.read_write_other _ _ _ _ _ (.inr (by rw [length]; omega)),written₁]
    exact Bytes.read_write_same _ _ EXIT_BEGIN (by rw [code]; simp only [PGSIZE] at *; omega)
  · rw [written₂,isBytes]
    have := Bytes.read_write_same (stackPage m₁ d g) (sp - 16 - 4 * (strings.length + 4) - PGSIZE * (g + 1)) bytes
      (by rw [length]; simp only [PGSIZE] at *; omega)
    rwa [length] at this
  · rw [written₂,Bytes.get_write_other _ _ _ _ (.inr (by rw [length]; omega)),written₁,
      Bytes.get_write_other _ _ _ _ (.inr (by rw [code]; omega))]

def Holds (m : Mem) (pgdir va : Nat) (bytes : List UInt8) : Prop :=
  (List.range bytes.length).map (fun i => userByte m pgdir (va + i)) = bytes.map some

/-- What `exec` writes to the stack: the words, the copy of `EXIT_BEGIN` and the strings, with their lengths. -/
def areas (esp stub : Nat) (args : List Nat) (argv : List (List UInt8)) : List (Nat × Nat) :=
  (esp,4 * (argv.length + 4)) :: (stub,16) :: (args.zip argv).map fun x => (x.1,x.2.length + 1)

/-- The stack of a program that was started with the arguments `argv`. -/
structure Layout (m : Mem) (pgdir sz esp : Nat) (argv : List (List UInt8)) (stub : Nat) (args : List Nat) : Prop where
  page : sz % PGSIZE = 0 ∧ 2 * PGSIZE ≤ sz ∧ sz < KERNBASE
  within : ∀ area ∈ areas esp stub args argv, esp ≤ area.1 ∧ area.1 + area.2 ≤ sz
  onPage : sz - PGSIZE ≤ esp
  guard : ∀ va, sz - 2 * PGSIZE ≤ va → va < sz - PGSIZE → userByte m pgdir va = none
  count : args.length = argv.length
  words : Holds m pgdir esp (([stub,argv.length,esp + 12] ++ args ++ [0]).flatMap (leBytes 4))
  exit : Holds m pgdir stub EXIT_BEGIN
  strings : ∀ a arg, (a,arg) ∈ args.zip argv → Holds m pgdir a (arg ++ [0])
  apart : (areas esp stub args argv).Pairwise fun x y => x.1 + x.2 ≤ y.1 ∨ y.1 + y.2 ≤ x.1

def Fits (argv : List (List UInt8)) : Prop := needs argv + 16 + 4 * (argv.length + 4) ≤ PGSIZE

instance (argv : List (List UInt8)) : Decidable (Fits argv) := inferInstanceAs (Decidable (_ ≤ _))

theorem Stack.userByte_page (stack : Stack All R m d g) {o : Nat} (inside : o < PGSIZE) :
    userByte m d (PGSIZE * (g + 1) + o) = some ((stackPage m d g).get o) := by
  have number : (PGSIZE * (g + 1) + o) / PGSIZE = g + 1 := by
    simp only [PGSIZE] at *
    omega
  have offset : (PGSIZE * (g + 1) + o) % PGSIZE = o := by
    simp only [PGSIZE] at *
    omega
  rw [userByte,number,offset,stack.present (by omega),stack.user,stackPage]
  rfl

theorem Stack.holds (stack : Stack All R m d g) {va : Nat} {bytes : List UInt8} (above : PGSIZE * (g + 1) ≤ va)
    (inside : va + bytes.length ≤ PGSIZE * (g + 2)) (content : (stackPage m d g).read (va - PGSIZE * (g + 1)) bytes.length = bytes) :
    Holds m d va bytes := by
  rw [Holds]
  conv_rhs => rw [← content]
  rw [Bytes.read,map_map]
  refine map_congr_left fun i member => ?_
  have low := mem_range.mp member
  have place : va + i = PGSIZE * (g + 1) + (va - PGSIZE * (g + 1) + i) := by omega
  rw [place,stack.userByte_page (by simp only [PGSIZE] at *; omega)]
  rfl

theorem Stack.guard_none (stack : Stack All R m d g) {va : Nat} (above : PGSIZE * g ≤ va) (below : va < PGSIZE * (g + 1)) : userByte m d va = none := by
  have number : va / PGSIZE = g := by
    simp only [PGSIZE] at *
    omega
  rw [userByte,number,stack.guard,Bool.and_false]
  rfl

theorem apart_spots {sp : Nat} {argv : List (List UInt8)} (fits : needs argv ≤ sp) :
    (((spots sp argv).zip argv).map fun x => (x.1,x.2.length + 1)).Pairwise fun x y => x.1 + x.2 ≤ y.1 ∨ y.1 + y.2 ≤ x.1 := by
  induction argv generalizing sp with
  | nil => exact List.Pairwise.nil
  | cons arg argv ih =>
    rw [needs_cons] at fits
    rw [spots,zip_cons_cons,map_cons]
    refine List.Pairwise.cons (fun y member => ?_) (ih (by omega))
    obtain ⟨x,isString,rfl⟩ := mem_map.mp member
    exact .inr (spots_range (by omega) isString).2

theorem Stack.layout (stack : Stack All R m d g) {argv : List (List UInt8)} {sp : Nat} (isSp : sp = PGSIZE * (g + 2) - needs argv)
    (fits : PGSIZE * (g + 1) + 16 + 4 * (argv.length + 4) ≤ sp) (strings : Strings (stackPage m d g) (PGSIZE * (g + 1)) (PGSIZE * (g + 2)) argv)
    (words : Words (stackPage m d g) (PGSIZE * (g + 1)) sp (spots (PGSIZE * (g + 2)) argv)) :
    Layout m d (PGSIZE * (g + 2)) (sp - 16 - 4 * (argv.length + 4)) argv (sp - 16) (spots (PGSIZE * (g + 2)) argv) := by
  obtain ⟨stub,words⟩ := words
  rw [length_spots] at words
  have small : needs argv ≤ PGSIZE * (g + 2) := by omega
  have place (a : Nat) (arg : List UInt8) (member : (a,arg) ∈ (spots (PGSIZE * (g + 2)) argv).zip argv) : sp ≤ a ∧ a + (arg.length + 1) ≤ PGSIZE * (g + 2) := by
    obtain ⟨low,high⟩ := spots_range small member
    exact ⟨by omega,high⟩
  refine ⟨⟨Nat.mul_mod_right ..,by simp only [PGSIZE]; omega,stack.space.low⟩,fun area member => ?_,?_,fun va above below => ?_,length_spots ..,?_,?_,
    fun a arg member => ?_,?_⟩
  · simp only [areas,mem_cons,mem_map] at member
    rcases member with rfl | rfl | ⟨x,isString,rfl⟩
    · exact ⟨le_refl _,by dsimp only; omega⟩
    · exact ⟨Nat.sub_le ..,by dsimp only; omega⟩
    · have := place x.1 x.2 isString
      exact ⟨by dsimp only; omega,this.2⟩
  · simp only [PGSIZE] at *
    omega
  · refine stack.guard_none ?_ ?_
    · simp only [PGSIZE] at *
      omega
    · simp only [PGSIZE] at *
      omega
  · have length : (([sp - 16,argv.length,sp - 16 - 4 * (argv.length + 4) + 12] ++ spots (PGSIZE * (g + 2)) argv ++ [0]).flatMap (leBytes 4)).length =
        4 * (argv.length + 4) := by
      rw [← words,Bytes.length_read]
    exact stack.holds (by omega) (by rw [length]; omega) (by rw [length]; exact words)
  · exact stack.holds (by omega) (by show sp - 16 + 16 ≤ _; omega) stub
  · obtain ⟨low,high⟩ := place a arg member
    have length : (arg ++ [0]).length = arg.length + 1 := by simp
    exact stack.holds (by omega) (by rw [length]; omega) (by rw [length]; exact strings a arg member)
  · rw [areas]
    refine List.Pairwise.cons (fun y member => .inl ?_) (List.Pairwise.cons (fun y member => .inl ?_) (apart_spots small))
    · rcases mem_cons.mp member with rfl | later
      · dsimp only
        omega
      · obtain ⟨x,isString,rfl⟩ := mem_map.mp later
        have := place x.1 x.2 isString
        dsimp only
        omega
    · obtain ⟨x,isString,rfl⟩ := mem_map.mp member
      have := place x.1 x.2 isString
      dsimp only
      omega

/-- What a process has in its memory does not depend on the pages of the others. -/
theorem userByte_kept {va : Nat} (kept : Kept (m.tree d) m m') (low : va < KERNBASE) : userByte m' d va = userByte m d va := by
  have user : va / PGSIZE < USERPAGES := Nat.div_lt_div_of_lt_of_dvd (by decide) low
  have same : m'.pte d (va / PGSIZE) = m.pte d (va / PGSIZE) := pte_congr (kept d (Multiset.mem_cons_self ..))
    (fun x isTable => kept x (Multiset.mem_cons_of_mem (Multiset.mem_add.mpr (.inl isTable)))) (lt_of_user user)
  rw [userByte,userByte,same]
  by_cases present : isPresent (m.pte d (va / PGSIZE)) = true
  · rw [kept (PTE_ADDR (m.pte d (va / PGSIZE))) (Multiset.mem_cons_of_mem (Multiset.mem_add.mpr (.inr (mem_frames.mpr ⟨_,user,present,rfl⟩))))]
  · rw [if_neg (by simp [present]),if_neg (by simp [present])]

theorem Holds.kept {va : Nat} {bytes : List UInt8} (holds : Holds m d va bytes) (kept : Kept (m.tree d) m m') (low : va + bytes.length ≤ KERNBASE) :
    Holds m' d va bytes := by
  rw [Holds,← holds]
  refine map_congr_left fun i member => userByte_kept kept ?_
  have := mem_range.mp member
  omega

theorem Layout.kept {esp stub : Nat} {argv : List (List UInt8)} {args : List Nat} (layout : Layout m d sz esp argv stub args)
    (kept : Kept (m.tree d) m m') : Layout m' d sz esp argv stub args := by
  obtain ⟨page,within,onPage,guard,count,words,exit,strings,apart⟩ := layout
  have inside (area : Nat × Nat) (member : area ∈ areas esp stub args argv) : area.1 + area.2 ≤ KERNBASE := by
    have := (within area member).2
    omega
  refine ⟨page,within,onPage,fun va above below => ?_,count,words.kept kept ?_,exit.kept kept (inside (stub,16) ?_),fun a arg member => ?_,apart⟩
  · rw [userByte_kept kept (by omega),guard va above below]
  · have := inside (esp,4 * (argv.length + 4)) (mem_cons_self ..)
    rw [length_words]
    simp only [length_append,length_cons,length_nil]
    omega
  · exact mem_cons_of_mem _ (mem_cons_self ..)
  · refine (strings a arg member).kept kept ?_
    rw [length_append,length_singleton]
    exact inside (a,arg.length + 1) (mem_cons_of_mem _ (mem_cons_of_mem _ (mem_map.mpr ⟨(a,arg),member,rfl⟩)))

structure Ready (All R : Multiset Nat) (m : Mem) (d : Nat) (argv : List (List UInt8)) (image : Image) : Prop where
  pgdir : image.pgdir = d
  space : Space All R m d image.sz
  fits : Fits argv
  layout : ∃ stub args, Layout m d image.sz image.sp argv stub args

theorem wp_exec_stack_layout {cur entry : Nat} {argv : List (List UInt8)} (reg : Region All)
    (assured : env.may true = false) (short : ∀ arg ∈ argv, arg.length < 2 ^ 32 - DEVSPACE) (space : Space All R m d sz)
    (sleep : ∀ table, env.may table = false → E .sleep) :
    Wp (checked ok env) E (exec_stack cur d sz entry argv) (fun image m' => Kept R m m' ∧ match image with
      | none => Owned All m' d R
      | some image => Ready All R m' d argv image) m := by
  refine wp_exec_stack_by reg assured space (fun m₁ stack kept => ?_) (fun m₁ owned kept => ⟨kept,owned⟩) sleep
  refine wp_exec_args_stack reg argv short (by simp only [PGSIZE]; omega) (le_refl _) (by simp only [PGSIZE]; omega) stack
    (fun m₂ stored₂ room strings _ few => ?_) (by decide) fun m₂ stored₂ => ?_
  swap
  · exact ⟨kept.trans (stored₂.keeps stack.space.owned reg),stored₂.owned stack.space.owned reg⟩
  have stack₂ := stack.stored reg stored₂
  have kept₂ := kept.trans (stored₂.keeps stack.space.owned reg)
  rw [nil_append]
  refine wp_exec_push_stack reg stack₂ (by omega) (Nat.sub_le ..) (by rw [length_spots]; simpa using few) (fun m₃ stored₃ fits words same => ?_)
    fun m₃ stored₃ => ?_
  swap
  · exact ⟨kept₂.trans (stored₃.keeps stack₂.space.owned reg),stored₃.owned stack₂.space.owned reg⟩
  have stack₃ := stack₂.stored reg stored₃
  rw [length_spots] at fits ⊢
  refine ⟨kept₂.trans (stored₃.keeps stack₂.space.owned reg),rfl,stack₃.space,?_,_,_,stack₃.layout rfl fits (fun a arg member => ?_) words⟩
  · rw [Fits]
    simp only [PGSIZE] at *
    omega
  · -- the words are below the strings
    have range := spots_range (by omega) member
    rw [Bytes.read_congr (b := stackPage m₂ d (pages sz)) fun i _ => same _ (by omega)]
    exact strings a arg member

/-- `exec` makes an address space with a stack for the arguments, or it fails and all pages are free again. -/
theorem wp_exec_ready {Q : Option Image → Mem → Prop} {cur : Nat} {file : List UInt8} {argv : List (List UInt8)} (reg : Region All)
    (divided : Divided All m R) (assured : env.may true = false)
    (permits : ∀ d, m.freelist.head? = some d → Permits ok All R d) (noWrap : ∀ ph ∈ programs file, Loads ph → ph.vaddr + ph.memsz < 2 ^ 32)
    (short : ∀ arg ∈ argv, arg.length < 2 ^ 32 - DEVSPACE)
    (misaligned : ∀ ph ∈ programs file, Loads ph → ph.vaddr % PGSIZE ≠ 0 → E (.panic "loaduvm: addr must be page aligned"))
    (done : ∀ m' image, Ready All R m' image.pgdir argv image → Kept R m m' → Q (some image) m')
    (fail : ∀ m', Divided All m' R → Kept R m m' → Q none m')
    (sleep : ∀ table, env.may table = false → E .sleep) : Wp (checked ok env) E (exec cur file argv) Q m := by
  refine wp_exec_by (G := fun d image m' => Ready All R m' d argv image) reg divided assured permits noWrap misaligned
    (fun m₁ d sz entry space => wp_exec_stack_layout reg assured short space sleep) (fun m' d image ready kept => ?_) fail sleep
  exact done m' image (by rw [ready.pgdir]; exact ready) kept

end Osce.Vm
