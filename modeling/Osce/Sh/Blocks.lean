import Osce.Sh.JobNodes
import Osce.Sh.Transfer
import Osce.Umalloc.Integrity

/-!
The jobs of the shell in the blocks that `malloc` returns.
-/
namespace Osce.Umalloc
open Function

variable {base turns : Nat} {blocks : List Block} {live : List (Block × Nat)} {h h' : Heap} {sbrk : Sbrk}

def setByte (w i : Nat) (c : UInt8) : Nat := w % 256 ^ i + 256 ^ i * (c.toNat + 256 * (w / 256 ^ (i + 1)))

/-- A byte is stored at y: every header that it is part of changes. -/
def poke (mem : Nat → Header) (y : Nat) (c : UInt8) : Nat → Header := fun a =>
  if a ≤ y ∧ y < a + 8 then
    if y < a + 4 then { mem a with ptr := setByte (mem a).ptr (y - a) c } else { mem a with size := setByte (mem a).size (y - a - 4) c }
  else mem a

def pokes (mem : Nat → Header) : Nat → List UInt8 → Nat → Header
  | _, [] => mem
  | y, c :: bytes => pokes (poke mem y c) (y + 1) bytes

/-- The stores of a program, one after the other, each at an address; the addresses of all bytes are noted. -/
def stores (s : Heap × List Nat) (writes : List (Nat × List UInt8)) : Heap × List Nat :=
  writes.foldl (fun s w => ({ s.1 with mem := pokes s.1.mem w.1 w.2 },s.2 ++ List.range' w.1 w.2.length)) s

def Block.Holds (b : Block) (y : Nat) : Prop := b.addr + 8 ≤ y ∧ y < b.stop

theorem Valid.poke {l : Block × Nat} {y : Nat} (valid : Valid base h live blocks) (isIn : l ∈ live) (inside : l.1.Holds y) (c : UInt8) :
    Valid base { h with mem := poke h.mem y c } live blocks := by
  obtain ⟨low,high⟩ := inside
  refine valid.congr (fun x node => if_neg ?_) fun k isK => if_neg ?_
  · have := valid.headers isIn (.inl node)
    omega
  · have := valid.headers isIn (.inr ⟨k,isK,rfl⟩)
    omega

theorem Valid.pokes {l : Block × Nat} {y : Nat} {bytes : List UInt8} (valid : Valid base h live blocks) (isIn : l ∈ live)
    (inside : ∀ i < bytes.length, l.1.Holds (y + i)) : Valid base { h with mem := pokes h.mem y bytes } live blocks := by
  induction bytes generalizing h y with
  | nil => exact valid
  | cons c bytes ih =>
    have first := valid.poke isIn (inside 0 (by simp)) c
    exact ih first fun i less => by
      have := inside (i + 1) (by simpa using less)
      rwa [Nat.add_assoc,Nat.add_comm 1 i]

theorem Valid.stores {s : Heap × List Nat} {writes : List (Nat × List UInt8)} (valid : Valid base s.1 live blocks)
    (inside : ∀ w ∈ writes, ∃ l ∈ live, ∀ i < w.2.length, l.1.Holds (w.1 + i)) : Valid base (stores s writes).1 live blocks := by
  induction writes generalizing s with
  | nil => exact valid
  | cons w writes ih =>
    rw [List.forall_mem_cons] at inside
    obtain ⟨⟨l,isIn,holds⟩,rest⟩ := inside
    have first := valid.pokes isIn holds
    exact ih first rest

theorem stores_noted (s : Heap × List Nat) (writes : List (Nat × List UInt8)) :
    (stores s writes).2 = s.2 ++ writes.flatMap fun w => List.range' w.1 w.2.length := by
  induction writes generalizing s with
  | nil => simp [stores]
  | cons w writes ih =>
    have step : stores s (w :: writes) = stores ({ s.1 with mem := pokes s.1.mem w.1 w.2 },s.2 ++ List.range' w.1 w.2.length) writes := rfl
    rw [step,ih,List.flatMap_cons,List.append_assoc]

theorem take_size (h : Heap) (n prevp p : Nat) : ((take h n prevp p).1.mem ((take h n prevp p).2 - 8)).size = n := by
  rw [take]
  split
  next same =>
    simp only [Nat.add_sub_cancel]
    by_cases isP : p = prevp
    · rw [isP,update_self,← isP,same]
    · rw [update_of_ne isP,same]
  next => simp

theorem search_size {n prevp p : Nat} {r : Heap × Nat} (run : search sbrk n turns h prevp p = some r) (some' : r.2 ≠ 0) :
    (r.1.mem (r.2 - 8)).size = n := by
  induction turns generalizing h prevp p with
  | zero => cases run
  | succ turns ih =>
    rw [search] at run
    split at run
    next =>
      cases run
      exact take_size ..
    next =>
      split at run
      next =>
        cases more : morecore sbrk turns h n with
        | none => simp [more] at run
        | some found =>
          cases found with
          | none =>
            simp only [more,Option.bind_eq_bind,Option.bind_some,Option.pure_def,Option.some.injEq] at run
            rw [← run] at some'
            exact absurd rfl some'
          | some h₁ =>
            simp only [more,Option.bind_eq_bind,Option.bind_some] at run
            exact ih run
      next => exact ih run

theorem Valid.malloc_block {bytes p : Nat} (valid : Valid base h live blocks) (positive : 0 < base) (small : bytes < 2 ^ 32 - 15) (fresh : Fresh sbrk)
    (run : Umalloc.malloc base sbrk turns h bytes = some (h',p)) (some' : p ≠ 0) :
    ∃ t blocks', p = t.addr + 8 ∧ t.size = nunits bytes ∧ Valid base h' ((t,bytes) :: live) blocks' := by
  obtain ⟨result,run',returns⟩ := valid.malloc positive small fresh (turns + (2 * blocks.length + 4)) (by omega)
  rw [malloc_more run] at run'
  cases run'
  obtain ⟨null,-⟩ | ⟨t,blocks',isT,size,valid'⟩ := returns
  · exact absurd null some'
  · refine ⟨t,blocks',isT,?_,valid'⟩
    have units := search_size run some'
    dsimp only at isT size
    rw [isT,Nat.add_sub_cancel] at units
    rw [← size,units]

end Osce.Umalloc

namespace Osce.Sh.Nodes
open Osce.Umalloc Function
open Osce.Procs (ProcState)

def SIZEOF_JOB : Nat := 24
def SIZEOF_JOBPROCESS : Nat := 8
def FOREGROUND : Nat := 1

/-- What `getJob` leaves: the heap, the addresses of the bytes that it wrote, and the blocks that it has from `malloc`. -/
structure NewJob where
  heap : Heap
  written : List Nat
  newJob : Nat
  cmd : Nat

/-- The stores into a new job, before its text is allocated. -/
def jobStores (newJob jobId inputFd : Nat) : List (Nat × List UInt8) :=
  [(newJob,List.replicate SIZEOF_JOB 0),(newJob,intBytes jobId),(newJob + 4,intBytes 0),(newJob + 8,intBytes 0),(newJob + 12,intBytes inputFd),
    (newJob + 16,intBytes FOREGROUND)]

/-- `getJob` for the text at `buf`, with what `sbrk` answers in the first and in the second call of `malloc`. -/
def getJob (base : Nat) (sbrk : Nat → Sbrk) (turns : Nat) (h : Heap) (jobId inputFd : Nat) (buf : List UInt8) : Option NewJob := do
  let (h,newJob) ← malloc base (sbrk 0) turns h SIZEOF_JOB
  let (h,written) := stores (h,[]) (jobStores newJob jobId inputFd)
  let (h,cmd) ← malloc base (sbrk 1) turns h (str buf).length
  let text ← strcpy buf
  let (h,written) := stores (h,written) [(newJob + 20,intBytes cmd),(cmd,text)]
  pure ⟨h,written,newJob,cmd⟩

section
variable {base turns jobId inputFd : Nat} {sbrk : Nat → Sbrk} {h : Heap} {live : List (Block × Nat)} {blocks : List Block} {buf : List UInt8} {r : NewJob}

theorem getJob_inv (run : getJob base sbrk turns h jobId inputFd buf = some r) :
    ∃ h₁ h₂ text, malloc base (sbrk 0) turns h SIZEOF_JOB = some (h₁,r.newJob) ∧
      malloc base (sbrk 1) turns (stores (h₁,[]) (jobStores r.newJob jobId inputFd)).1 (str buf).length = some (h₂,r.cmd) ∧ strcpy buf = some text ∧
      (r.heap,r.written) = stores (h₂,(stores (h₁,[]) (jobStores r.newJob jobId inputFd)).2) [(r.newJob + 20,intBytes r.cmd),(r.cmd,text)] := by
  simp only [getJob,Option.bind_eq_bind,Option.bind_eq_some_iff,Option.pure_def,Option.some.injEq,Prod.exists] at run
  obtain ⟨h₁,newJob,first,h₂,cmd,second,text,copied,rfl⟩ := run
  exact ⟨h₁,h₂,text,first,second,copied,rfl⟩

theorem field_inside {t : Block} (size : t.size = nunits SIZEOF_JOB) (off n : Nat) (fits : off + n ≤ SIZEOF_JOB) : ∀ i < n, t.Holds (t.addr + 8 + off + i) := by
  intro i less
  have four : t.size = 4 := size
  have fits : off + n ≤ 24 := fits
  simp only [Block.Holds,Block.stop,four]
  omega

theorem jobStores_inside {t : Block} (size : t.size = nunits SIZEOF_JOB) (jobId inputFd : Nat) :
    ∀ w ∈ jobStores (t.addr + 8) jobId inputFd, ∀ i < w.2.length, t.Holds (w.1 + i) := by
  simp only [jobStores,List.forall_mem_cons,List.not_mem_nil,false_imp_iff,implies_true,and_true]
  have word (n : Nat) : (intBytes n).length = 4 := rfl
  simp only [word,List.length_replicate]
  exact ⟨field_inside size 0 _ (by decide),field_inside size 0 _ (by decide),field_inside size 4 _ (by decide),field_inside size 8 _ (by decide),
    field_inside size 12 _ (by decide),field_inside size 16 _ (by decide)⟩

/-- The new blocks, and the heap when `getJob` has made its stores before the copy of the text. -/
theorem getJob_blocks (valid : Valid base h live blocks) (positive : 0 < base) (fresh : ∀ i, Fresh (sbrk i)) (short : (str buf).length ≤ 99)
    (run : getJob base sbrk turns h jobId inputFd buf = some r) (some₁ : r.newJob ≠ 0) (some₂ : r.cmd ≠ 0) :
    ∃ t₁ t₂ blocks' s text, r.newJob = t₁.addr + 8 ∧ r.cmd = t₂.addr + 8 ∧ t₁.size = nunits SIZEOF_JOB ∧ t₂.size = nunits (str buf).length ∧
      Valid base s.1 ((t₂,(str buf).length) :: (t₁,SIZEOF_JOB) :: live) blocks' ∧ (∀ y ∈ s.2, t₁.Holds y) ∧ strcpy buf = some text ∧
      (r.heap,r.written) = stores s [(r.cmd,text)] := by
  obtain ⟨h₁,h₂,text,first,second,copied,left'⟩ := getJob_inv run
  obtain ⟨t₁,blocks₁,isT₁,size₁,valid₁⟩ := valid.malloc_block positive (by decide) (fresh 0) first some₁
  have inside := jobStores_inside size₁ jobId inputFd
  rw [← isT₁] at inside
  have stored : Valid base (stores (h₁,[]) (jobStores r.newJob jobId inputFd)).1 ((t₁,SIZEOF_JOB) :: live) blocks₁ :=
    valid₁.stores fun w isIn => ⟨(t₁,SIZEOF_JOB),by simp,inside w isIn⟩
  obtain ⟨t₂,blocks₂,isT₂,size₂,valid₂⟩ := stored.malloc_block positive (by omega) (fresh 1) second some₂
  have last := field_inside size₁ 20 4 (by decide)
  rw [← isT₁] at last
  refine ⟨t₁,t₂,blocks₂,stores (h₂,(stores (h₁,[]) (jobStores r.newJob jobId inputFd)).2) [(r.newJob + 20,intBytes r.cmd)],text,isT₁,isT₂,size₁,size₂,?_,?_,
    copied,left'⟩
  · exact valid₂.stores fun w isIn => ⟨(t₁,SIZEOF_JOB),by simp,by rw [List.mem_singleton.mp isIn]; exact last⟩
  · intro y isIn
    simp only [stores_noted,List.nil_append,List.mem_append,List.mem_flatMap,List.mem_singleton,List.mem_range'_1] at isIn
    rcases isIn with ⟨w,isW,low,high⟩ | ⟨w,rfl,low,high⟩
    · have := inside w isW (y - w.1) (by omega)
      rwa [Nat.add_sub_cancel' low] at this
    · have := last (y - (r.newJob + 20)) (by
        have word : (intBytes r.cmd).length = 4 := rfl
        dsimp only at low high
        omega)
      rwa [Nat.add_sub_cancel' low] at this

/-- The text fits exactly if its length is not a multiple of the size of a header. -/
theorem text_fits {t : Block} (size : t.size = nunits (str buf).length) (short : (str buf).length ≤ 99) :
    t.addr + 8 + (str buf).length < t.stop ↔ (str buf).length % 8 ≠ 0 := by
  rw [Block.stop,size,nunits]
  omega

/-- A byte that is stored is in no other block. -/
structure Alone (base : Nat) (live : List (Block × Nat)) (blocks : List Block) (y : Nat) : Prop where
  base : base + 8 ≤ y
  free : ∀ b ∈ blocks, ¬(b.addr ≤ y ∧ y < b.stop)
  live : ∀ l ∈ live, ¬(l.1.addr ≤ y ∧ y < l.1.stop)

/-- What `getJob` writes is in its two blocks exactly if the text fits. Then the heap is sound, and no other block was written into. -/
theorem getJob_inside (valid : Valid base h live blocks) (positive : 0 < base) (fresh : ∀ i, Fresh (sbrk i)) (short : (str buf).length ≤ 99)
    (run : getJob base sbrk turns h jobId inputFd buf = some r) (some₁ : r.newJob ≠ 0) (some₂ : r.cmd ≠ 0) :
    ∃ t₁ t₂ : Block, r.newJob = t₁.addr + 8 ∧ r.cmd = t₂.addr + 8 ∧ ((∀ y ∈ r.written, t₁.Holds y ∨ t₂.Holds y) ↔ (str buf).length % 8 ≠ 0) ∧
      ((str buf).length % 8 ≠ 0 → ∃ blocks', Valid base r.heap ((t₂,(str buf).length) :: (t₁,SIZEOF_JOB) :: live) blocks' ∧
        ∀ y ∈ r.written, Alone base live blocks' y) := by
  obtain ⟨t₁,t₂,blocks',s,text,isT₁,isT₂,size₁,size₂,valid',fields,copied,left'⟩ := getJob_blocks valid positive fresh short run some₁ some₂
  have fits := text_fits size₂ short
  have long : text.length = (str buf).length + 1 := by rw [(strcpy_eq copied).1,List.length_append,List.length_singleton]
  have isHeap : r.heap = (stores s [(r.cmd,text)]).1 := congrArg Prod.fst left'
  have written : r.written = s.2 ++ List.range' r.cmd text.length := by
    rw [show r.written = (stores s [(r.cmd,text)]).2 from congrArg Prod.snd left',stores_noted]
    simp
  have others := valid'.apartLive
  rw [List.pairwise_cons,List.pairwise_cons] at others
  obtain ⟨apart₂,apart₁,-⟩ := others
  have apart := apart₂ (t₁,SIZEOF_JOB) (by simp)
  have inside (ok : (str buf).length % 8 ≠ 0) (y : Nat) (isIn : y ∈ r.written) : t₁.Holds y ∨ t₂.Holds y := by
    rw [written,List.mem_append,List.mem_range'_1] at isIn
    rcases isIn with field | ⟨low,high⟩
    · exact .inl (fields y field)
    · have room := fits.mpr ok
      exact .inr ⟨by omega,by omega⟩
  refine ⟨t₁,t₂,isT₁,isT₂,⟨fun all ok => ?_,inside⟩,fun ok => ⟨blocks',?_,fun y isIn => ?_⟩⟩
  · -- the NUL is behind the block
    have behind : ¬t₂.addr + 8 + (str buf).length < t₂.stop := fun room => fits.mp room ok
    have nul : r.cmd + (str buf).length ∈ r.written := by
      rw [written,List.mem_append,List.mem_range'_1]
      exact .inr ⟨by omega,by omega⟩
    have units : t₂.stop = t₂.addr + 8 + (str buf).length := by
      rw [Block.stop,size₂,nunits]
      omega
    simp only [Block.Apart] at apart
    rcases all _ nul with ⟨low,high⟩ | ⟨low,high⟩
    · omega
    · omega
  · rw [isHeap]
    refine valid'.stores fun w isIn => ⟨(t₂,(str buf).length),by simp,fun i less => ?_⟩
    rw [List.mem_singleton.mp isIn] at less ⊢
    have room := fits.mpr ok
    dsimp only at less ⊢
    exact ⟨by omega,by omega⟩
  · have within : ∃ t ∈ [t₂,t₁], t.Holds y ∧ base + 8 ≤ t.addr ∧ (∀ b ∈ blocks', t.Apart b) ∧ ∀ l ∈ live, t.Apart l.1 := by
      have facts (t : Block) (bytes : Nat) (isLive : (t,bytes) ∈ (t₂,(str buf).length) :: (t₁,SIZEOF_JOB) :: live) :=
        And.intro (valid'.inside _ isLive).1 (valid'.apartFree _ isLive)
      rcases inside ok y isIn with holds | holds
      · obtain ⟨low,free⟩ := facts t₁ SIZEOF_JOB (by simp)
        exact ⟨t₁,by simp,holds,low,free,fun l isL => apart₁ l isL⟩
      · obtain ⟨low,free⟩ := facts t₂ (str buf).length (by simp)
        exact ⟨t₂,by simp,holds,low,free,fun l isL => apart₂ l (by simp [isL])⟩
    obtain ⟨t,-,⟨low,high⟩,above,free,live'⟩ := within
    refine ⟨by omega,fun b isB => ?_,fun l isL => ?_⟩
    · have := free b isB
      rw [Block.Apart] at this
      omega
    · have := live' l isL
      rw [Block.Apart] at this
      omega

end

/-- `getProcess` and `addProcessToJob`, where `head` is the field `headOfProcesses` of the job. -/
def addProcessToJob (base : Nat) (sbrk : Sbrk) (turns : Nat) (h : Heap) (job head pid : Nat) : Option (Heap × Nat) := do
  let (h,newProcess) ← malloc base sbrk turns h SIZEOF_JOBPROCESS
  let (h,_) := stores (h,[]) [(newProcess,List.replicate SIZEOF_JOBPROCESS 0),(newProcess,intBytes pid),(newProcess + 4,intBytes 0),
    (newProcess + 4,intBytes head),(job + 8,intBytes newProcess)]
  pure (h,newProcess)

/-- The inner loop of `deleteJobList`. -/
def deleteProcesses : Nat → Nat → Mem → Except Err Mem
  | 0, _, _ => .error .turns
  | turns + 1, currentProc, mem =>
    if currentProc = 0 then .ok mem
    else do
      let (_,tempProc) ← loadProcess mem currentProc
      let mem ← free mem currentProc
      deleteProcesses turns tempProc mem

def deleteJobList : Nat → Nat → Mem → Except Err Mem
  | 0, _, _ => .error .turns
  | turns + 1, currentJob, mem =>
    if currentJob = 0 then .ok mem
    else do
      let (fields,_) ← loadJob mem currentJob
      let mem ← deleteProcesses turns fields.headOfProcesses mem
      let (fields,tempJob) ← loadJob mem currentJob
      let mem ← free mem fields.cmd
      let mem ← free mem currentJob
      deleteJobList turns tempJob mem

def Node.bytes : Node → Nat
  | .process _ _ => SIZEOF_JOBPROCESS
  | .job _ _ => SIZEOF_JOB
  | .text s => s.length

def Keeps (mem mem' : Mem) : Prop := ∀ p node', mem' p = some node' → ∃ node, mem p = some node ∧ node'.bytes = node.bytes

def Keeping {α : Type} (mem : Mem) (r : Except Err α) (left : α → Mem) : Prop := ∀ a, r = .ok a → Keeps mem (left a)

section
variable {mem mem' mem'' : Mem} {α β : Type} {pstat : Int → Option ProcState}

theorem Keeps.refl (mem : Mem) : Keeps mem mem := fun _ node here => ⟨node,here,rfl⟩

theorem Keeps.trans (first : Keeps mem mem') (second : Keeps mem' mem'') : Keeps mem mem'' := by
  intro p node'' here
  obtain ⟨node',here',same⟩ := second p node'' here
  obtain ⟨node,before,same'⟩ := first p node' here'
  exact ⟨node,before,same.trans same'⟩

theorem keeping_ok {left : α → Mem} {a : α} (keeps : Keeps mem (left a)) : Keeping mem (.ok a) left := by
  rintro b same
  cases same
  exact keeps

theorem keeping_bind {x : Except Err α} {f : α → Except Err β} {left : α → Mem} {left' : β → Mem} (first : Keeping mem x left)
    (rest : ∀ a, Keeping (left a) (f a) left') : Keeping mem (x >>= f) left' := by
  intro b run
  cases x with
  | error e => cases run
  | ok a => exact (first a rfl).trans (rest a b run)

theorem keeping_read {x : Except Err α} {f : α → Except Err β} {left' : β → Mem} (rest : ∀ a, Keeping mem (f a) left') :
    Keeping mem (x >>= f) left' := by
  have read : Keeping mem x fun _ => mem := fun _ _ => Keeps.refl mem
  exact keeping_bind read rest

theorem keeping_if {c : Prop} [Decidable c] {x y : Except Err α} {left : α → Mem} (yes : Keeping mem x left) (no : Keeping mem y left) :
    Keeping mem (if c then x else y) left := by
  split
  · exact yes
  · exact no

theorem keeping_error (e : Err) (left : α → Mem) : Keeping mem (.error e) left := fun _ run => nomatch run

theorem keeps_update {p : Nat} {node node' : Node} (here : mem p = some node) (same : node'.bytes = node.bytes) : Keeps mem (update mem p (some node')) := by
  intro q other there
  by_cases isP : q = p
  · rw [isP,update_self] at there
    cases there
    exact ⟨node,isP ▸ here,same⟩
  · rw [update_of_ne isP] at there
    exact ⟨other,there,rfl⟩

theorem keeping_free (mem : Mem) (p : Nat) : Keeping mem (free mem p) id := by
  refine keeping_if (keeping_error _ _) (keeping_ok fun q node there => ?_)
  by_cases isP : q = p
  · rw [isP,id,update_self] at there
    cases there
  · rw [id,update_of_ne isP] at there
    exact ⟨node,there,rfl⟩

theorem keeping_setNextProcess (mem : Mem) (p next : Nat) : Keeping mem (setNextProcess mem p next) id := by
  intro mem' run
  rw [setNextProcess,loadProcess] at run
  split at run
  · cases run
  · rw [processAt] at run
    split at run
    next here =>
      cases run
      exact keeps_update here rfl
    next => cases run

theorem keeping_setNextJob (mem : Mem) (p next : Nat) : Keeping mem (setNextJob mem p next) id := by
  intro mem' run
  rw [setNextJob,loadJob] at run
  split at run
  · cases run
  · rw [jobAt] at run
    split at run
    next here =>
      cases run
      exact keeps_update here rfl
    next => cases run

theorem keeping_setHeadOfProcesses (mem : Mem) (p head : Nat) : Keeping mem (setHeadOfProcesses mem p head) id := by
  intro mem' run
  rw [setHeadOfProcesses,loadJob] at run
  split at run
  · cases run
  · rw [jobAt] at run
    split at run
    next here =>
      cases run
      exact keeps_update here rfl
    next => cases run

theorem keeping_firstProcess (turns cur : Nat) (mem : Mem) : Keeping mem (firstProcess pstat turns cur mem) Prod.snd := by
  induction turns generalizing cur mem with
  | zero => exact keeping_error _ _
  | succ turns ih =>
    refine keeping_if (keeping_ok (Keeps.refl mem)) (keeping_read fun node => keeping_if ?_ (keeping_ok (Keeps.refl mem)))
    exact keeping_bind (keeping_free mem cur) fun mem => ih _ _

theorem keeping_restProcesses (turns prev cur : Nat) (mem : Mem) : Keeping mem (restProcesses pstat turns prev cur mem) id := by
  induction turns generalizing prev cur mem with
  | zero => exact keeping_error _ _
  | succ turns ih =>
    refine keeping_if (keeping_ok (Keeps.refl mem)) (keeping_read fun node => keeping_if ?_ (ih _ _ _))
    refine keeping_bind (keeping_setNextProcess mem prev _) fun mem => keeping_bind (keeping_free mem cur) fun mem => ?_
    exact keeping_read fun _ => keeping_read fun _ => ih _ _ _

theorem keeping_clearZombieProcesses (turns head : Nat) (mem : Mem) : Keeping mem (clearZombieProcesses pstat turns head mem) Prod.snd := by
  refine keeping_if (keeping_ok (Keeps.refl mem)) (keeping_bind (keeping_firstProcess turns head mem) fun found => keeping_if ?_ (keeping_ok (Keeps.refl _)))
  exact keeping_read fun _ => keeping_bind (keeping_restProcesses turns _ _ _) fun mem => keeping_ok (Keeps.refl mem)

section
variable {clear : Clear}

theorem keeping_clearProcesses (keeping : ∀ head mem, Keeping mem (clear head mem) Prod.snd) (mem : Mem) (cur : Nat) :
    Keeping mem (clearProcesses clear mem cur) id :=
  keeping_read fun _ => keeping_bind (keeping _ mem) fun found => keeping_setHeadOfProcesses found.2 cur found.1

theorem keeping_firstJob (keeping : ∀ head mem, Keeping mem (clear head mem) Prod.snd) (turns cur : Nat) (mem : Mem) :
    Keeping mem (firstJob clear turns cur mem) Prod.snd := by
  induction turns generalizing cur mem with
  | zero => exact keeping_error _ _
  | succ turns ih =>
    refine keeping_if (keeping_ok (Keeps.refl mem)) (keeping_read fun node => keeping_bind (keeping_clearProcesses keeping mem cur) fun mem => ?_)
    refine keeping_read fun node => keeping_if ?_ (keeping_ok (Keeps.refl mem))
    exact keeping_bind (keeping_free mem _) fun mem => keeping_bind (keeping_free mem cur) fun mem => ih _ _

theorem keeping_restJobs (keeping : ∀ head mem, Keeping mem (clear head mem) Prod.snd) (turns prev cur : Nat) (mem : Mem) :
    Keeping mem (restJobs clear turns prev cur mem) id := by
  induction turns generalizing prev cur mem with
  | zero => exact keeping_error _ _
  | succ turns ih =>
    refine keeping_if (keeping_ok (Keeps.refl mem)) (keeping_bind (keeping_clearProcesses keeping mem cur) fun mem => ?_)
    refine keeping_read fun node => keeping_if ?_ (ih _ _ _)
    refine keeping_bind (keeping_setNextJob mem prev _) fun mem => keeping_bind (keeping_free mem _) fun mem => ?_
    refine keeping_bind (keeping_free mem cur) fun mem => keeping_read fun node => keeping_if ?_ (ih _ _ _)
    exact keeping_read fun _ => ih _ _ _

theorem keeping_clearJobList (keeping : ∀ head mem, Keeping mem (clear head mem) Prod.snd) (turns head : Nat) (mem : Mem) :
    Keeping mem (clearJobList clear turns head mem) Prod.snd := by
  refine keeping_if (keeping_ok (Keeps.refl mem)) (keeping_bind (keeping_firstJob keeping turns head mem) fun found => keeping_if ?_ (keeping_ok (Keeps.refl _)))
  exact keeping_read fun _ => keeping_bind (keeping_restJobs keeping turns _ _ _) fun mem => keeping_ok (Keeps.refl mem)

end

theorem keeping_deleteProcesses (turns cur : Nat) (mem : Mem) : Keeping mem (deleteProcesses turns cur mem) id := by
  induction turns generalizing cur mem with
  | zero => exact keeping_error _ _
  | succ turns ih =>
    refine keeping_if (keeping_ok (Keeps.refl mem)) (keeping_read fun node => ?_)
    exact keeping_bind (keeping_free mem cur) fun mem => ih _ _

theorem keeping_deleteJobList (turns cur : Nat) (mem : Mem) : Keeping mem (deleteJobList turns cur mem) id := by
  induction turns generalizing cur mem with
  | zero => exact keeping_error _ _
  | succ turns ih =>
    refine keeping_if (keeping_ok (Keeps.refl mem)) (keeping_read fun node => keeping_bind (keeping_deleteProcesses turns _ mem) fun mem => ?_)
    refine keeping_read fun node => keeping_bind (keeping_free mem _) fun mem => ?_
    exact keeping_bind (keeping_free mem cur) fun mem => ih _ _

end

structure Shell where
  machine : Machine
  nodes : Mem

def blockAt (h : Heap) (p : Nat) : Block := ⟨p - 8,(h.mem (p - 8)).size⟩

/-- Stores into live blocks, and the frees of these blocks. -/
inductive Releases : List Nat → Machine → Machine → Prop where
  | done {m : Machine} : Releases [] m m
  | store {m m' : Machine} {ps : List Nat} {l : Block × Nat} {y : Nat} {c : UInt8} (isLive : l ∈ m.live) (inside : l.1.Holds y)
      (rest : Releases ps ⟨{ m.heap with mem := poke m.heap.mem y c },m.live⟩ m') : Releases ps m m'
  | free {m m' : Machine} {ps : List Nat} {l : Block × Nat} {turns : Nat} {heap : Heap} (isLive : l ∈ m.live)
      (run : Umalloc.free turns m.heap (l.1.addr + 8) = some heap) (rest : Releases ps ⟨heap,m.live.erase l⟩ m') : Releases ((l.1.addr + 8) :: ps) m m'

/-- A call of one of the four functions that returns. `clearJobList` and `deleteJobList` store into nodes and free the blocks of the nodes that they
    remove, each once. -/
inductive Call (base : Nat) (s : Shell) : Shell → Prop where
  | getJob {sbrk : Nat → Sbrk} {turns jobId inputFd : Nat} {buf : List UInt8} {r : NewJob} (fresh : ∀ i, Fresh (sbrk i))
      (long : 1 ≤ (str buf).length ∧ (str buf).length ≤ 99) (fits : (str buf).length % 8 ≠ 0)
      (run : getJob base sbrk turns s.machine.heap jobId inputFd buf = some r) (some₁ : r.newJob ≠ 0) (some₂ : r.cmd ≠ 0) :
      Call base s ⟨⟨r.heap,(blockAt r.heap r.cmd,(str buf).length) :: (blockAt r.heap r.newJob,SIZEOF_JOB) :: s.machine.live⟩,
        Function.update (Function.update s.nodes r.newJob (some (.job ⟨.ofNat jobId,0,inputFd,.foreground,r.cmd⟩ 0))) r.cmd (some (.text (str buf)))⟩
  | addProcessToJob {sbrk : Sbrk} {turns job next newProcess : Nat} {fields : JobFields} {pid : Int} {heap : Heap} (fresh : Fresh sbrk)
      (here : s.nodes job = some (.job fields next))
      (run : addProcessToJob base sbrk turns s.machine.heap job fields.headOfProcesses (pid % 2 ^ 32).toNat = some (heap,newProcess)) (some' : newProcess ≠ 0) :
      Call base s ⟨⟨heap,(blockAt heap newProcess,SIZEOF_JOBPROCESS) :: s.machine.live⟩,
        Function.update (Function.update s.nodes newProcess (some (.process pid fields.headOfProcesses))) job
          (some (.job { fields with headOfProcesses := newProcess } next))⟩
  | clearJobList {pstat : Int → Option ProcState} {turns head newHead : Nat} {nodes' : Mem} {freed : List Nat} {machine' : Machine}
      (run : clearJobList (clearZombieProcesses pstat turns) turns head s.nodes = .ok (newHead,nodes')) (once : freed.Nodup)
      (all : ∀ p, p ∈ freed ↔ (s.nodes p).isSome ∧ nodes' p = none) (released : Releases freed s.machine machine') : Call base s ⟨machine',nodes'⟩
  | deleteJobList {turns head : Nat} {nodes' : Mem} {freed : List Nat} {machine' : Machine} (run : deleteJobList turns head s.nodes = .ok nodes')
      (once : freed.Nodup) (all : ∀ p, p ∈ freed ↔ (s.nodes p).isSome ∧ nodes' p = none) (released : Releases freed s.machine machine') :
      Call base s ⟨machine',nodes'⟩

def Housed (live : List (Block × Nat)) (nodes : Mem) : Prop := ∀ p node, nodes p = some node → ∃ l ∈ live, l.1.addr + 8 = p ∧ node.bytes ≤ l.2

structure Kept (base : Nat) (s : Shell) : Prop where
  valid : ∃ blocks, Valid base s.machine.heap s.machine.live blocks
  nodes : Housed s.machine.live s.nodes

section
variable {base : Nat} {s s' : Shell} {m m' : Machine} {ps : List Nat} {blocks : List Block}

theorem Releases.valid (released : Releases ps m m') (valid : Valid base m.heap m.live blocks) : ∃ blocks', Valid base m'.heap m'.live blocks' := by
  induction released generalizing blocks with
  | done => exact ⟨blocks,valid⟩
  | store isLive inside _ ih => exact ih (valid.poke isLive inside _)
  | @free m m' ps l turns heap isLive run _ ih =>
    obtain ⟨heap',blocks',run',valid'⟩ := valid.free isLive (turns + (blocks.length + 2)) (by omega)
    rw [free_more run] at run'
    cases run'
    exact ih valid'

theorem Releases.live {l : Block × Nat} (released : Releases ps m m') (isLive : l ∈ m.live) (kept : l.1.addr + 8 ∉ ps) : l ∈ m'.live := by
  induction released with
  | done => exact isLive
  | store _ _ _ ih => exact ih isLive kept
  | @free m m' ps k turns heap _ _ _ ih =>
    rw [List.mem_cons,not_or] at kept
    refine ih ((List.mem_erase_of_ne ?_).mpr isLive) kept.2
    rintro rfl
    exact kept.1 rfl

theorem Kept.released {nodes' : Mem} (kept : Kept base s) (keeps : Keeps s.nodes nodes') (all : ∀ p, p ∈ ps ↔ (s.nodes p).isSome ∧ nodes' p = none)
    (released : Releases ps s.machine m') : Kept base ⟨m',nodes'⟩ := by
  obtain ⟨blocks,valid⟩ := kept.valid
  refine ⟨released.valid valid,fun p node' here => ?_⟩
  obtain ⟨node,before,same⟩ := keeps p node' here
  obtain ⟨l,isLive,isP,enough⟩ := kept.nodes p node before
  refine ⟨l,released.live isLive fun freed => ?_,isP,same ▸ enough⟩
  have gone := ((all _).mp freed).2
  have still : nodes' p = some node' := here
  rw [isP,still] at gone
  cases gone

theorem Housed.more {live : List (Block × Nat)} {nodes : Mem} (housed : Housed live nodes) (l : Block × Nat) : Housed (l :: live) nodes := by
  intro p node here
  obtain ⟨k,isLive,isP,enough⟩ := housed p node here
  exact ⟨k,by simp [isLive],isP,enough⟩

theorem Housed.put {live : List (Block × Nat)} {nodes : Mem} {p : Nat} {node : Node} (housed : Housed live nodes) (l : Block × Nat) (isLive : l ∈ live)
    (isP : l.1.addr + 8 = p) (enough : node.bytes ≤ l.2) : Housed live (update nodes p (some node)) := by
  intro q other here
  by_cases same : q = p
  · rw [same,update_self] at here
    cases here
    exact ⟨l,isLive,isP.trans same.symm,enough⟩
  · rw [update_of_ne same] at here
    exact housed q other here

theorem blockAt_eq {h : Heap} {live : List (Block × Nat)} {t : Block} {bytes : Nat} (valid : Valid base h live blocks) (isLive : (t,bytes) ∈ live) :
    blockAt h (t.addr + 8) = t := by
  rw [blockAt,Nat.add_sub_cancel,valid.sizes _ isLive]

theorem addProcess_inside {h h' : Heap} {live : List (Block × Nat)} {sbrk : Sbrk} {turns job head pid newProcess : Nat} {l : Block × Nat}
    (valid : Valid base h live blocks) (positive : 0 < base) (fresh : Fresh sbrk) (isLive : l ∈ live) (isJob : l.1.addr + 8 = job) (room : SIZEOF_JOB ≤ l.2)
    (run : addProcessToJob base sbrk turns h job head pid = some (h',newProcess)) (some' : newProcess ≠ 0) :
    ∃ t blocks', newProcess = t.addr + 8 ∧ Valid base h' ((t,SIZEOF_JOBPROCESS) :: live) blocks' := by
  simp only [addProcessToJob,Option.bind_eq_bind,Option.bind_eq_some_iff,Option.pure_def,Option.some.injEq,Prod.exists,Prod.mk.injEq] at run
  obtain ⟨h₁,p,first,rfl,rfl⟩ := run
  obtain ⟨t,blocks',isT,size,valid'⟩ := valid.malloc_block positive (by decide) fresh first some'
  refine ⟨t,blocks',isT,valid'.stores ?_⟩
  have two : t.size = 2 := size
  have own (off n : Nat) (fits : off + n ≤ 8) : ∃ k ∈ (t,SIZEOF_JOBPROCESS) :: live, ∀ i < n, k.1.Holds (p + off + i) := by
    refine ⟨(t,SIZEOF_JOBPROCESS),by simp,fun i less => ?_⟩
    simp only [Block.Holds,Block.stop,two]
    omega
  have link : ∃ k ∈ (t,SIZEOF_JOBPROCESS) :: live, ∀ i < 4, k.1.Holds (job + 8 + i) := by
    refine ⟨l,by simp [isLive],fun i less => ?_⟩
    have payload := valid.payload l isLive
    have room : 24 ≤ l.2 := room
    simp only [Block.Holds,Block.stop]
    omega
  simp only [List.forall_mem_cons,List.not_mem_nil,false_imp_iff,implies_true,and_true,List.length_replicate]
  exact ⟨own 0 8 (by decide),own 0 4 (by decide),own 4 4 (by decide),own 4 4 (by decide),link⟩

theorem Kept.call (kept : Kept base s) (positive : 0 < base) (call : Call base s s') : Kept base s' := by
  obtain ⟨blocks,valid⟩ := kept.valid
  cases call with
  | @getJob sbrk turns jobId inputFd buf r fresh long fits run some₁ some₂ =>
    obtain ⟨t₁,t₂,isT₁,isT₂,-,sound⟩ := getJob_inside valid positive fresh long.2 run some₁ some₂
    obtain ⟨blocks',valid',-⟩ := sound fits
    have at₁ : blockAt r.heap r.newJob = t₁ := by
      rw [isT₁]
      exact blockAt_eq valid' (by simp : (t₁,SIZEOF_JOB) ∈ _)
    have at₂ : blockAt r.heap r.cmd = t₂ := by
      rw [isT₂]
      exact blockAt_eq valid' (by simp : (t₂,(str buf).length) ∈ _)
    rw [at₁,at₂]
    refine ⟨⟨blocks',valid'⟩,?_⟩
    refine Housed.put (Housed.put ((kept.nodes.more (t₁,SIZEOF_JOB)).more (t₂,(str buf).length)) (t₁,SIZEOF_JOB) ?_ isT₁.symm (Nat.le_refl _))
      (t₂,(str buf).length) ?_ isT₂.symm (Nat.le_refl _)
    · exact List.mem_cons_of_mem _ (List.mem_cons_self ..)
    · exact List.mem_cons_self ..
  | @addProcessToJob sbrk turns job next newProcess fields pid heap fresh here run some' =>
    obtain ⟨l,isLive,isJob,room⟩ := kept.nodes job _ here
    obtain ⟨t,blocks',isT,valid'⟩ := addProcess_inside valid positive fresh isLive isJob room run some'
    have at' : blockAt heap newProcess = t := by
      rw [isT]
      exact blockAt_eq valid' (by simp : (t,SIZEOF_JOBPROCESS) ∈ _)
    rw [at']
    refine ⟨⟨blocks',valid'⟩,?_⟩
    refine Housed.put (Housed.put (kept.nodes.more (t,SIZEOF_JOBPROCESS)) (t,SIZEOF_JOBPROCESS) ?_ isT.symm (Nat.le_refl _)) l
      (List.mem_cons_of_mem _ isLive) isJob room
    exact List.mem_cons_self ..
  | clearJobList run _ all released =>
    exact kept.released (keeping_clearJobList (keeping_clearZombieProcesses _) _ _ _ _ run) all released
  | deleteJobList run _ all released => exact kept.released (keeping_deleteJobList _ _ _ _ run) all released

end

/-- The bytes that `getJob` writes are in its two blocks exactly if the length of the command is not a multiple of 8, and then no other block is
    written into. With such commands any sequence of calls keeps the heap sound. -/
theorem job_blocks (base : Nat) (positive : 0 < base) :
    (∀ h live blocks sbrk turns jobId inputFd buf r, Valid base h live blocks → (∀ i, Fresh (sbrk i)) →
      1 ≤ (str buf).length ∧ (str buf).length ≤ 99 → getJob base sbrk turns h jobId inputFd buf = some r → r.newJob ≠ 0 → r.cmd ≠ 0 →
      ∃ t₁ t₂ : Block, r.newJob = t₁.addr + 8 ∧ r.cmd = t₂.addr + 8 ∧ ((∀ y ∈ r.written, t₁.Holds y ∨ t₂.Holds y) ↔ (str buf).length % 8 ≠ 0) ∧
        ((str buf).length % 8 ≠ 0 → ∃ blocks', Valid base r.heap ((t₂,(str buf).length) :: (t₁,SIZEOF_JOB) :: live) blocks' ∧
          ∀ y ∈ r.written, Alone base live blocks' y)) ∧
    ∀ s₀ s : Shell, Initial base s₀.machine → (∀ p, s₀.nodes p = none) → Relation.ReflTransGen (Call base) s₀ s →
      ∃ blocks, Valid base s.machine.heap s.machine.live blocks := by
  refine ⟨fun h live blocks sbrk turns jobId inputFd buf r valid fresh long run some₁ some₂ => getJob_inside valid positive fresh long.2 run some₁ some₂,
    fun s₀ s initial empty calls => ?_⟩
  have kept : Kept base s := by
    induction calls with
    | refl => exact ⟨⟨[],initial_valid initial⟩,fun p node here => by rw [empty p] at here; cases here⟩
    | tail _ call ih => exact ih.call positive call
  exact kept.valid

def lsLine : List UInt8 := [108,115,10,0]

theorem fresh_grows (_ : Nat) : Fresh grows := fun top k a grown => by
  cases grown
  exact Nat.le_refl _

/-- `ls` gets a process, and the list of its job is deleted: the heaps after each step, and the addresses of the three blocks. -/
structure LsRun where
  r : NewJob
  heap : Heap
  process : Nat
  freed₁ : Heap
  freed₂ : Heap
  freed₃ : Heap

def lsRun : Option LsRun := do
  let r ← getJob 16 (fun _ => grows) 8 loaded.heap 1 4 lsLine
  let (heap,process) ← addProcessToJob 16 grows 8 r.heap r.newJob 0 5
  let freed₁ ← Umalloc.free 8 heap process
  let freed₂ ← Umalloc.free 8 freed₁ r.cmd
  let freed₃ ← Umalloc.free 8 freed₂ r.newJob
  pure ⟨r,heap,process,freed₁,freed₂,freed₃⟩

theorem lsRun_addresses : (lsRun.map fun x => (x.r.newJob,x.r.cmd,x.process)) = some (36840,36824,36808) := by decide +kernel

theorem job_blocks_ls : (∃ r, getJob 16 (fun _ => grows) 8 loaded.heap 1 4 lsLine = some r ∧
    ∃ t₁ t₂ : Block, r.newJob = t₁.addr + 8 ∧ r.cmd = t₂.addr + 8 ∧ (∀ y ∈ r.written, t₁.Holds y ∨ t₂.Holds y) ∧
      ∃ blocks', Valid 16 r.heap [(t₂,3),(t₁,SIZEOF_JOB)] blocks') ∧
    ∃ s, Relation.ReflTransGen (Call 16) ⟨loaded,fun _ => none⟩ s ∧ s.machine.live = [] ∧ ∃ blocks, Valid 16 s.machine.heap s.machine.live blocks := by
  have initial : Initial 16 loaded := ⟨rfl,rfl,by decide,by decide⟩
  obtain ⟨x,run,addresses⟩ := Option.map_eq_some_iff.mp lsRun_addresses
  simp only [lsRun,Option.bind_eq_bind,Option.bind_eq_some_iff,Prod.exists,Option.pure_def,Option.some.injEq] at run
  obtain ⟨r,run,heap,process,adds,freed₁,free₁,freed₂,free₂,freed₃,free₃,rfl⟩ := run
  simp only [Prod.mk.injEq] at addresses
  obtain ⟨isJob,isCmd,rfl⟩ := addresses
  have some₁ : r.newJob ≠ 0 := by omega
  have some₂ : r.cmd ≠ 0 := by omega
  constructor
  · obtain ⟨t₁,t₂,isT₁,isT₂,inside,sound⟩ := (job_blocks 16 (by decide)).1 loaded.heap [] [] _ 8 1 4 lsLine r (initial_valid initial) fresh_grows
      (by decide) run some₁ some₂
    obtain ⟨blocks',valid',-⟩ := sound (by decide)
    exact ⟨r,run,t₁,t₂,isT₁,isT₂,inside.mpr (by decide),blocks',valid'⟩
  · have job : Call 16 ⟨loaded,fun _ => none⟩ _ := .getJob fresh_grows (by decide) (by decide) run some₁ some₂
    rw [isJob,isCmd] at job
    rw [isJob] at adds free₃
    rw [isCmd] at free₂
    have added := (Relation.ReflTransGen.single job).tail (@Call.addProcessToJob 16 _ grows 8 36840 0 36808 _ 5 heap (fresh_grows 0) rfl adds (by decide))
    have released : Releases [36808,36824,36840]
        ⟨heap,[(blockAt heap 36808,SIZEOF_JOBPROCESS),(blockAt r.heap 36824,3),(blockAt r.heap 36840,SIZEOF_JOB)]⟩ ⟨freed₃,[]⟩ := by
      refine .free (l := (blockAt heap 36808,SIZEOF_JOBPROCESS)) (List.mem_cons_self ..) free₁ ?_
      rw [List.erase_cons_head]
      refine .free (l := (blockAt r.heap 36824,3)) (List.mem_cons_self ..) free₂ ?_
      rw [List.erase_cons_head]
      refine .free (l := (blockAt r.heap 36840,SIZEOF_JOB)) (List.mem_cons_self ..) free₃ ?_
      rw [List.erase_cons_head]
      exact .done
    have deleted := added.tail (@Call.deleteJobList 16 _ 4 36840 _ _ _ rfl (by decide) (fun p => ?_) released)
    · exact ⟨_,deleted,rfl,(job_blocks 16 (by decide)).2 _ _ initial (fun _ => rfl) deleted⟩
    · simp only [List.mem_cons,List.not_mem_nil,or_false,Function.update_apply]
      by_cases isJob : p = 36840
      · simp [isJob]
      by_cases isCmd : p = 36824
      · simp [isCmd]
      by_cases isProcess : p = 36808
      · simp [isProcess]
      · simp [isJob,isCmd,isProcess]

/-- A line of 8 bytes: the NUL goes into the header of the next block, which is that of the job. -/
theorem job_overruns : (getJob 16 (fun _ => grows) 8 loaded.heap 1 4 [101,99,104,111,32,104,105,10,0]).map
    (fun r => (r.newJob,r.cmd,decide (r.newJob - 8 ∈ r.written))) = some (36840,36824,true) := by
  decide +kernel

end Osce.Sh.Nodes
