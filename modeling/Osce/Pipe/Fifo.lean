import Osce.Pipe.Code

/-!
The bytes of a pipe. Whoever holds `p->lock`, the bytes stored so far are those that
`piperead` has returned, those that the reader inside has in hand and those in the pipe,
in this order.
-/
namespace Osce.Pipes
open Osce.Lib Function
set_option linter.unusedSectionVars false

variable {P : Type} [DecidableEq P]

namespace Pipe

variable {p : Pipe}

theorem full_iff : p.full = true ↔ p.count = PIPESIZE := by
  rw [full,beq_iff_eq]
  exact (Ring.count_eq_size (by decide)).symm

theorem empty_iff : p.empty = true ↔ p.content = [] := by
  rw [empty,beq_iff_eq]
  exact Ring.content_eq_nil.symm

theorem content_put (bound : p.count ≤ PIPESIZE) (room : p.full = false) (b : UInt8) :
    (p.put b).content = p.content ++ [b] ∧ (p.put b).count ≤ PIPESIZE := by
  have less : p.count < PIPESIZE := by
    refine Nat.lt_of_le_of_ne bound fun same => ?_
    rw [full_iff.mpr same] at room
    cases room
  have small : p.count + 1 < 2 ^ 32 := Nat.lt_of_le_of_lt less (by decide)
  refine ⟨Ring.content_push (by decide) (by decide) less b,?_⟩
  have more : (p.put b).count = p.count + 1 := Ring.count_push small
  omega

theorem content_get (some : p.empty = false) : p.content = p.get.1 :: p.get.2.content ∧ p.get.2.count ≤ p.count := by
  have different : p.nread ≠ p.nwrite := by simpa [empty] using some
  refine ⟨Ring.content_pop (by decide) different,?_⟩
  have fewer : p.count = p.get.2.count + 1 := Ring.count_pop different
  omega

theorem content_close (writable : Bool) : (p.close writable).content = p.content ∧ (p.close writable).count = p.count := by
  cases writable <;> exact ⟨rfl,rfl⟩

end Pipe

/-- The bytes that a `piperead` has copied and not yet returned. -/
def Pc.inHand : Pc → List UInt8
  | .copy _ got => got
  | .readReturn _ (some got) => got
  | _ => []

/-- The bytes stored are those returned, those in hand and those in the pipe, in this order. -/
structure Fifo (s : State P) : Prop where
  bound : s.pipe.count ≤ PIPESIZE
  free : s.lock = none → s.stored = s.reads.flatten ++ s.pipe.content
  busy : ∀ q, (s.pc q).Inside → s.stored = s.reads.flatten ++ (s.pc q).inHand ++ s.pipe.content
  /-- Before the first byte is copied the pipe is not empty, or closed. -/
  ready : ∀ q n, s.pc q = .copy n [] → ¬ (s.pipe.empty = true ∧ s.pipe.writeopen = true)
  zero : ∀ q n, s.pc q = .readReturn n (some []) → 0 < n → s.pipe.empty = true ∧ s.pipe.writeopen = false

section
variable {s s' : State P} {q : P} {a : Action P}

theorem fifo_inside (locked : Locked s') (here : (s'.pc q).Inside) (bound : s'.pipe.count ≤ PIPESIZE)
    (queue : s'.stored = s'.reads.flatten ++ (s'.pc q).inHand ++ s'.pipe.content)
    (ready : ∀ n, s'.pc q = .copy n [] → ¬ (s'.pipe.empty = true ∧ s'.pipe.writeopen = true))
    (zero : ∀ n, s'.pc q = .readReturn n (some []) → 0 < n → s'.pipe.empty = true ∧ s'.pipe.writeopen = false) : Fifo s' := by
  have alone {r : P} (there : (s'.pc r).Inside) : r = q := locked.inside.alone here there
  refine ⟨bound,?_,?_,?_,?_⟩
  · intro free
    rw [(locked.inside q).mp here] at free
    cases free
  · intro r there
    rw [alone there]
    exact queue
  · intro r n there
    have same := alone (r := r) (by rw [there]; trivial)
    rw [same] at there
    exact ready n there
  · intro r n there
    have same := alone (r := r) (by rw [there]; trivial)
    rw [same] at there
    exact zero n there

theorem fifo_free (locked : Locked s') (free : s'.lock = none) (bound : s'.pipe.count ≤ PIPESIZE)
    (queue : s'.stored = s'.reads.flatten ++ s'.pipe.content) : Fifo s' := by
  have nobody {r : P} (there : (s'.pc r).Inside) : False := by
    have held := (locked.inside r).mp there
    rw [free] at held
    cases held
  refine ⟨bound,fun _ => queue,fun r there => (nobody there).elim,?_,?_⟩
  · intro r n there
    exact (nobody (r := r) (by rw [there]; trivial)).elim
  · intro r n there
    exact (nobody (r := r) (by rw [there]; trivial)).elim

theorem Fifo.same (fifo : Fifo s) (lock : s'.lock = s.lock) (pipe : s'.pipe = s.pipe) (stored : s'.stored = s.stored)
    (reads : s'.reads = s.reads) (kept : ∀ r, (s'.pc r).Inside → s'.pc r = s.pc r) : Fifo s' := by
  refine ⟨by rw [pipe]; exact fifo.bound,by rw [lock,stored,reads,pipe]; exact fifo.free,?_,?_,?_⟩
  · intro r there
    have before := kept r there
    rw [before] at there ⊢
    rw [stored,reads,pipe]
    exact fifo.busy r there
  · intro r n there
    rw [pipe]
    refine fifo.ready r n ?_
    rw [← kept r (by rw [there]; trivial)]
    exact there
  · intro r n there
    rw [pipe]
    refine fifo.zero r n ?_
    rw [← kept r (by rw [there]; trivial)]
    exact there

theorem inside_kept {pc : Pc} (outside : ¬ pc.Inside) {r : P} (there : (update s.pc q pc r).Inside) :
    update s.pc q pc r = s.pc r := by
  by_cases same : r = q
  · rw [same,update_self] at there
    exact absurd there outside
  · exact update_of_ne same _ _

theorem wakes_kept (pc : Pc) (there : (wakeWrite (wakeRead pc)).Inside) : wakeWrite (wakeRead pc) = pc := by
  cases pc <;> first | rfl | cases there

theorem Enters.fresh {pc pc' : Pc} (enters : Enters pc pc') :
    pc'.inHand = [] ∧ (∀ n, pc' ≠ .copy n []) ∧ ∀ n, pc' ≠ .readReturn n (some []) := by
  cases enters <;> exact ⟨rfl,nofun,nofun⟩

theorem Fifo.step (fifo : Fifo s) (locked : Locked s) (moves : Moves s a s') : Fifo s' := by
  have locked' := locked.step moves
  have queue {q : P} {pc : Pc} (here : s.pc q = pc) (inside : pc.Inside) : s.stored = s.reads.flatten ++ pc.inHand ++ s.pipe.content := by
    rw [← here] at inside ⊢
    exact fifo.busy q inside
  have inner {q : P} (pc : Pc) (at_ : s'.pc q = pc) (inside : pc.Inside) (bound : s'.pipe.count ≤ PIPESIZE)
      (stored : s'.stored = s'.reads.flatten ++ pc.inHand ++ s'.pipe.content)
      (ready : ∀ n, pc = .copy n [] → ¬ (s'.pipe.empty = true ∧ s'.pipe.writeopen = true))
      (zero : ∀ n, pc = .readReturn n (some []) → 0 < n → s'.pipe.empty = true ∧ s'.pipe.writeopen = false) : Fifo s' := by
    subst at_
    exact fifo_inside locked' inside bound stored ready zero
  -- a process that has the lock goes on without touching the pipe
  have goes {q : P} {pc : Pc} (pc' : Pc) (here : s.pc q = pc) (at_ : s'.pc q = pc') (inside : pc.Inside) (inside' : pc'.Inside)
      (hand : pc'.inHand = pc.inHand) (same : s'.pipe = s.pipe ∧ s'.stored = s.stored ∧ s'.reads = s.reads)
      (ready : ∀ n, pc' = .copy n [] → ¬ (s.pipe.empty = true ∧ s.pipe.writeopen = true))
      (zero : ∀ n, pc' = .readReturn n (some []) → 0 < n → s.pipe.empty = true ∧ s.pipe.writeopen = false) : Fifo s' := by
    obtain ⟨pipe,stored,reads⟩ := same
    refine inner pc' at_ inside' (by rw [pipe]; exact fifo.bound) ?_ (by rwa [pipe]) (by rwa [pipe])
    rw [hand,pipe,stored,reads]
    exact queue here inside
  -- or it gives up the lock, and what it had in hand has been read
  have leaves {q : P} {pc : Pc} (here : s.pc q = pc) (inside : pc.Inside) (free : s'.lock = none) (same : s'.pipe = s.pipe ∧ s'.stored = s.stored)
      (reads : s'.reads.flatten = s.reads.flatten ++ pc.inHand) : Fifo s' := by
    refine fifo_free locked' free (by rw [same.1]; exact fifo.bound) ?_
    rw [same.1,same.2,reads]
    exact queue here inside
  cases moves with
  | begins here wants => exact fifo.same rfl rfl rfl rfl fun r there => inside_kept wants.inside.1 there
  | @kill q free =>
    refine fifo.same rfl rfl rfl rfl fun r there => ?_
    by_cases same : r = q
    · subst same
      simp only [update_self] at there ⊢
      exact wakes_kept _ there
    · exact update_of_ne same _ _
  | @acquires q pc enters free =>
    obtain ⟨_,inside,_⟩ := enters.inside
    obtain ⟨hand,notCopy,notReturn⟩ := enters.fresh
    refine inner pc (update_self ..) inside fifo.bound ?_ (fun n same => absurd same (notCopy n)) fun n same => absurd same (notReturn n)
    rw [hand,List.append_nil]
    exact fifo.free free
  | gives_up here => exact goes (.writeReturn (-1)) here (update_self _ _ _) trivial trivial rfl ⟨rfl,rfl,rfl⟩ (by simp) (by simp)
  | @fills _ addr n i here => exact goes (.writeFull addr n i) here (by simp) trivial trivial rfl ⟨rfl,rfl,rfl⟩ (by simp) (by simp)
  | @puts q addr n i here room =>
    obtain ⟨content,bound⟩ := s.pipe.content_put fifo.bound room (addr i)
    refine inner (.write addr n (i + 1)) (update_self ..) trivial bound ?_ (by simp) (by simp)
    simp only [content,queue here trivial,State.goto,Pc.inHand,List.append_nil,List.append_assoc]
  | @done _ _ n _ here => exact goes (.writeDone n) here (update_self _ _ _) trivial trivial rfl ⟨rfl,rfl,rfl⟩ (by simp) (by simp)
  | write_falls here => exact leaves here trivial rfl ⟨rfl,rfl⟩ (List.append_nil _).symm
  | write_sleeps here => exact fifo.same rfl rfl rfl rfl fun r there => inside_kept id there
  | @write_wakes _ n here => exact goes (.writeReturn n) here (by simp) trivial trivial rfl ⟨rfl,rfl,rfl⟩ (by simp) (by simp)
  | write_returns here => exact leaves here trivial rfl ⟨rfl,rfl⟩ (List.append_nil _).symm
  | @read_killed _ n here => exact goes (.readReturn n none) here (update_self _ _ _) trivial trivial rfl ⟨rfl,rfl,rfl⟩ (by simp) (by simp)
  | read_falls here => exact leaves here trivial rfl ⟨rfl,rfl⟩ (List.append_nil _).symm
  | read_sleeps here => exact fifo.same rfl rfl rfl rfl fun r there => inside_kept id there
  | @copies _ n here ready => exact goes (.copy n []) here (update_self _ _ _) trivial trivial rfl ⟨rfl,rfl,rfl⟩ (fun _ _ => ready) (by simp)
  | @gets q n got here some =>
    obtain ⟨content,fewer⟩ := s.pipe.content_get some
    refine inner (.copy n (got ++ [s.pipe.get.1])) (update_self ..) trivial (Nat.le_trans fewer fifo.bound) ?_ (fun m same => by simp at same) (by simp)
    simp only [queue here trivial,content,State.goto,Pc.inHand,List.append_assoc,List.singleton_append]
  | @read_wakes q n got here last free =>
    refine goes (.readReturn n (some got)) here (by simp) trivial trivial rfl ⟨rfl,rfl,rfl⟩ (by simp) ?_
    intro m same positive
    cases same
    have empty : s.pipe.empty = true := by
      by_contra some
      exact last ⟨by simpa using positive,by simpa using some⟩
    refine ⟨empty,?_⟩
    by_contra isOpen
    exact fifo.ready q n here ⟨empty,by simpa using isOpen⟩
  | @read_returns q n got here => exact leaves here trivial rfl ⟨rfl,rfl⟩ (by cases got <;> simp [Pc.inHand])
  | @closes q writable here =>
    obtain ⟨content,count⟩ := s.pipe.content_close writable
    refine inner (.closing writable) (update_self ..) trivial (by rw [count]; exact fifo.bound) ?_ (by simp) (by simp)
    simpa only [State.goto,Pc.inHand,content] using queue here trivial
  | close_wakes here => exact goes .closed here (by simp) trivial trivial rfl ⟨rfl,rfl,rfl⟩ (by simp) (by simp)
  | close_returns here => exact leaves here trivial rfl ⟨rfl,rfl⟩ (List.append_nil _).symm

theorem Reachable.locked {data : Nat → UInt8} {killed : P → Bool} (reachable : Reachable data killed s) : Locked s := by
  refine Steps.Reachable.invariant (I := Locked) reachable ⟨?_,?_⟩ fun _ _ _ _ locked _ taken => locked.step (moves_of_step taken)
  · exact fun _ => ⟨nofun,nofun⟩
  · exact fun _ => ⟨nofun,nofun⟩

theorem Reachable.fifo {data : Nat → UInt8} {killed : P → Bool} (reachable : Reachable data killed s) : Fifo s := by
  refine Steps.Reachable.invariant (I := Fifo) reachable ?_
    fun _ _ _ before fifo _ taken => fifo.step (Reachable.locked before) (moves_of_step taken)
  have nothing : Ring.count (0 : BitVec 32) 0 ≤ PIPESIZE := by decide
  exact ⟨nothing,fun _ => (Ring.content_eq_nil.mpr rfl).symm,fun _ inside => inside.elim,nofun,nofun⟩

/-- The bytes that the calls of `piperead` return are those stored, in the same order, up
    to the ones still in the pipe; and a call returns 0 only at the end. -/
theorem pipe_fifo {data : Nat → UInt8} {killed : P → Bool} (reachable : Reachable data killed s) :
    (s.pipe.nwrite - s.pipe.nread).toNat ≤ PIPESIZE ∧ s.reads.flatten <+: s.stored ∧
      (s.lock = none → s.stored = s.reads.flatten ++ s.pipe.content) ∧
      ∀ q n got, s.pc q = .readReturn n (some got) → 0 < n → got.length = 0 →
        s.pipe.writeopen = false ∧ s.stored = s.reads.flatten := by
  have fifo := reachable.fifo
  have locked := reachable.locked
  refine ⟨fifo.bound,?_,fifo.free,?_⟩
  · cases holder : s.lock with
    | none =>
      rw [fifo.free holder]
      exact List.prefix_append _ _
    | some q =>
      rw [fifo.busy q ((locked.inside q).mpr holder),List.append_assoc]
      exact List.prefix_append _ _
  · intro q n got here positive zero
    have nothing := List.length_eq_zero_iff.mp zero
    subst nothing
    obtain ⟨empty,isClosed⟩ := fifo.zero q n here positive
    refine ⟨isClosed,?_⟩
    rw [fifo.busy q (by rw [here]; trivial),here,Pipe.empty_iff.mp empty]
    simp [Pc.inHand]

def twoBytes : List (Action Bool) :=
  .pipewrite false (fun i => if i = 0 then 7 else 8) 2 :: List.replicate 6 (.turn false) ++
    .piperead true 5 :: List.replicate 6 (.turn true)

theorem pipe_fifo_two_bytes : ∃ s, Steps.run step (fun _ _ => True) (State.init Bool (fun _ => 0) fun _ => false) twoBytes = some s ∧
    s.reads = [[7,8]] ∧ s.reads.flatten <+: s.stored ∧ s.stored = s.reads.flatten ++ s.pipe.content := by
  have taken : ∃ s, Steps.run step (fun _ _ => True) (State.init Bool (fun _ => 0) fun _ => false) twoBytes = some s ∧
      s.reads = [[7,8]] ∧ s.lock = none := ⟨_,rfl,rfl,rfl⟩
  obtain ⟨s,run,reads,free⟩ := taken
  obtain ⟨_,order,queue,_⟩ := pipe_fifo (Steps.reachable_run .start run)
  exact ⟨s,run,reads,order,queue free⟩

end

end Osce.Pipes
