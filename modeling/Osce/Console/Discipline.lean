import Osce.Console.Code

/-!
The line discipline of the console. The ring with its three wrapping indices stands for a
queue of committed bytes and a pending line, and every call does to the ring what it
would do to these two.
-/
namespace Osce.Console
open Osce.Lib Function List
set_option linter.unusedSectionVars false

/-- The committed bytes, and the line that can still be edited. -/
structure Line where
  queue : List UInt8
  pending : List UInt8

namespace Line

/-- The character goes to the end of the line, which is committed when it is complete or
    nothing more fits. -/
def store (c : UInt8) (l : Line) : Line × Bool :=
  let line := l.pending ++ [c]
  if c = NL ∨ c = C 'D' ∨ l.queue.length + line.length = INPUT_BUF then (⟨l.queue ++ line,[]⟩,true)
  else (⟨l.queue,line⟩,false)

def key (c : UInt8) (l : Line) : Line × Bool :=
  if c = 0 ∨ c = C 'P' then (l,false)
  else if c = C 'U' then (⟨l.queue,[]⟩,false)
  else if c = C 'H' ∨ c = DEL then (⟨l.queue,l.pending.dropLast⟩,false)
  else if l.queue.length + l.pending.length = INPUT_BUF then (l,false)
  else l.store (if c = CR then NL else c)

/-- A reader gets the first committed byte, and removes it unless it is a `C('D')` that is
    held for the next reader. -/
def take (held : Bool) (l : Line) : Option (UInt8 × Line) :=
  match l.queue with
  | [] => none
  | c :: rest => some (c,if c = C 'D' ∧ held then l else ⟨rest,l.pending⟩)

end Line

def spec : Buffer Line := ⟨Line.key,Line.take⟩

namespace Input

def line (i : Input) : Line := ⟨Ring.content INPUT_BUF i.buf i.r i.w,Ring.content INPUT_BUF i.buf i.w i.e⟩

/-- r <= w <= e <= r + INPUT_BUF, counted from r. -/
structure Ordered (i : Input) : Prop where
  w_le_e : (i.w - i.r).toNat ≤ (i.e - i.r).toNat
  e_le : (i.e - i.r).toNat ≤ INPUT_BUF

structure Good (i : Input) : Prop where
  ordered : i.Ordered
  oneLine : NL ∉ i.line.pending

theorem divides : INPUT_BUF ∣ 2 ^ 32 := by decide
theorem small : INPUT_BUF < 2 ^ 32 := by decide

variable {i : Input}

theorem ordered_iff : i.Ordered ↔ i.line.queue.length + i.line.pending.length ≤ INPUT_BUF := by
  simp only [line,Ring.length_content]
  constructor
  · rintro ⟨less,bound⟩
    have rest := Ring.count_between less
    rw [← Ring.count,← Ring.count] at less
    rw [← Ring.count] at bound
    omega
  · intro sum
    have all := Ring.count_append (Nat.lt_of_le_of_lt sum small)
    refine ⟨?_,?_⟩
    · rw [← Ring.count,← Ring.count,all]
      exact Nat.le_add_right _ _
    · rw [← Ring.count,all]
      exact sum

theorem Ordered.count (ordered : i.Ordered) : (i.e - i.r).toNat = i.line.queue.length + i.line.pending.length := by
  have sum := ordered_iff.mp ordered
  simp only [line,Ring.length_content] at sum ⊢
  exact Ring.count_append (Nat.lt_of_le_of_lt sum small)

/-- The loop for `C('U')` goes back to the committed bytes. -/
theorem killLine_eq (oneLine : NL ∉ i.line.pending) : i.killLine = { i with e := i.w } := by
  induction i using killLine.induct with
  | case1 i more ih =>
    have newest : Ring.content INPUT_BUF i.buf i.w i.e = _ := Ring.content_unpush divides more.1
    rw [killLine,if_pos more]
    refine ih fun member => oneLine ?_
    simp only [line] at member ⊢
    rw [newest]
    exact mem_append_left _ member
  | case2 i last =>
    rw [killLine,if_neg last]
    by_cases same : i.w = i.e
    · exact congrArg (Input.mk i.buf i.r i.w) same.symm
    · have newest : Ring.content INPUT_BUF i.buf i.w i.e = _ := Ring.content_unpush divides same
      refine absurd ⟨same,fun isLine => oneLine ?_⟩ last
      simp only [line]
      rw [newest,← isLine]
      exact mem_append_right _ mem_cons_self

theorem line_killLine (oneLine : NL ∉ i.line.pending) : i.killLine.line = ⟨i.line.queue,[]⟩ := by
  rw [killLine_eq oneLine,line,Ring.content_eq_nil.mpr rfl]
  rfl

theorem line_backspace (i : Input) : i.backspace.line = ⟨i.line.queue,i.line.pending.dropLast⟩ := by
  unfold backspace
  split
  · rename_i some
    have newest : Ring.content INPUT_BUF i.buf i.w i.e = _ := Ring.content_unpush divides fun same : i.w = i.e => some same.symm
    simp only [line]
    rw [newest,dropLast_concat]
  · rename_i same
    have nothing : Ring.content INPUT_BUF i.buf i.w i.e = [] := Ring.content_eq_nil.mpr (not_not.mp same).symm
    simp only [line]
    rw [nothing,dropLast_nil]

theorem line_put (room : i.line.queue.length + i.line.pending.length < INPUT_BUF) (c : UInt8) :
    (i.put c).line = ⟨i.line.queue,i.line.pending ++ [c]⟩ := by
  simp only [line,Ring.length_content] at room
  simp only [line,put]
  rw [Ring.content_update divides small room,Ring.content_push divides small (by omega)]

theorem line_commit (ordered : i.Ordered) : { i with w := i.e : Input }.line = ⟨i.line.queue ++ i.line.pending,[]⟩ := by
  have sum := ordered_iff.mp ordered
  simp only [line,Ring.length_content] at sum ⊢
  rw [Ring.content_append divides (Nat.lt_of_le_of_lt sum small),Ring.content_eq_nil.mpr rfl]

theorem Good.of_line {j : Input} (good : i.Good) (shorter : j.line.queue.length + j.line.pending.length ≤
    i.line.queue.length + i.line.pending.length) (part : j.line.pending ⊆ i.line.pending) : j.Good :=
  ⟨ordered_iff.mpr (shorter.trans (ordered_iff.mp good.ordered)),fun member => good.oneLine (part member)⟩

theorem store_refines (good : i.Good) (room : i.line.queue.length + i.line.pending.length < INPUT_BUF) (c : UInt8) :
    (i.store c).1.Good ∧ i.line.store c = ((i.store c).1.line,(i.store c).2) := by
  have after := line_put room c
  have length : (i.line.pending ++ [c]).length = i.line.pending.length + 1 := length_append
  have ordered : (i.put c).Ordered := by
    rw [ordered_iff,after,length]
    exact room
  -- the test for a full buffer
  have fills : (i.put c).e = (i.put c).r + BitVec.ofNat 32 INPUT_BUF ↔
      i.line.queue.length + (i.line.pending ++ [c]).length = INPUT_BUF := by
    rw [← Ring.count_eq_size small,Ring.count,ordered.count,after]
  unfold store Line.store
  by_cases commits : c = NL ∨ c = C 'D' ∨ i.line.queue.length + (i.line.pending ++ [c]).length = INPUT_BUF
  · have committed := line_commit ordered
    rw [after] at committed
    simp only [fills,if_pos commits]
    refine ⟨⟨ordered_iff.mpr ?_,?_⟩,by rw [committed]⟩
    · rw [committed]
      simp only [length_append,length_nil,length_singleton]
      omega
    · rw [committed]
      exact not_mem_nil
  · simp only [fills,if_neg commits,after]
    refine ⟨⟨ordered,?_⟩,trivial⟩
    rw [after,mem_append,mem_singleton]
    exact not_or.mpr ⟨good.oneLine,fun isLine => commits (.inl isLine.symm)⟩

theorem key_refines (good : i.Good) (c : UInt8) : (i.key c).1.Good ∧ i.line.key c = ((i.key c).1.line,(i.key c).2) := by
  have count := good.ordered.count
  have bound := ordered_iff.mp good.ordered
  unfold key Line.key
  by_cases listing : c = C 'P'
  · rw [if_pos listing,if_pos (.inr listing)]
    exact ⟨good,rfl⟩
  rw [if_neg listing]
  by_cases nul : c = 0
  · subst nul
    rw [if_neg (by decide : ¬ (0 : UInt8) = C 'U'),if_neg (by decide : ¬ ((0 : UInt8) = C 'H' ∨ (0 : UInt8) = DEL)),
      if_neg fun some => some.1 rfl,if_pos (.inl rfl)]
    exact ⟨good,rfl⟩
  rw [if_neg (not_or.mpr ⟨nul,listing⟩)]
  by_cases kills : c = C 'U'
  · rw [if_pos kills,if_pos kills]
    have after := line_killLine good.oneLine
    refine ⟨good.of_line (by rw [after]; simp) (by rw [after]; simp),by rw [after]⟩
  rw [if_neg kills,if_neg kills]
  by_cases erases : c = C 'H' ∨ c = DEL
  · rw [if_pos erases,if_pos erases]
    have after := line_backspace i
    refine ⟨good.of_line ?_ ?_,by rw [after]⟩
    · rw [after]
      simp
    · rw [after]
      exact dropLast_subset _
  rw [if_neg erases,if_neg erases,count]
  by_cases full : i.line.queue.length + i.line.pending.length = INPUT_BUF
  · rw [if_neg (by omega),if_pos full]
    exact ⟨good,rfl⟩
  have room : i.line.queue.length + i.line.pending.length < INPUT_BUF := by omega
  rw [if_pos ⟨nul,room⟩,if_neg full]
  exact store_refines good room _

theorem take_refines (good : i.Good) (held : Bool) : (∀ c j, i.take held = some (c,j) → j.Good) ∧
    i.line.take held = (i.take held).map fun got => (got.1,got.2.line) := by
  unfold take Line.take
  by_cases empty : i.r = i.w
  · rw [if_pos empty,show i.line.queue = [] from Ring.content_eq_nil.mpr empty]
    exact ⟨nofun,rfl⟩
  rw [if_neg empty]
  have first : i.line.queue = i.byteAt i.r :: { i with r := i.r + 1 : Input }.line.queue := Ring.content_pop divides empty
  have after : { i with r := i.r + 1 : Input }.Good := by
    refine good.of_line ?_ (List.Subset.refl _)
    rw [first,length_cons]
    exact Nat.add_le_add_right (Nat.le_succ _) _
  have back : { i with r := i.r + 1 - 1 : Input } = i := by rw [add_sub_cancel_right]
  rw [first]
  dsimp only
  rw [back]
  by_cases isEof : i.byteAt i.r = C 'D'
  · rw [if_pos isEof]
    cases held with
    | true =>
      refine ⟨fun c j same => ?_,?_⟩
      · cases same
        exact good
      · rw [if_pos ⟨isEof,rfl⟩]
        rfl
    | false =>
      refine ⟨fun c j same => ?_,?_⟩
      · cases same
        exact after
      · rw [if_neg fun both => Bool.noConfusion both.2]
        rfl
  · rw [if_neg isEof,if_neg fun both => isEof both.1]
    refine ⟨fun c j same => ?_,rfl⟩
    cases same
    exact after

end Input

/-- The ring does what the queue and the line do. -/
theorem code_refines : Simulates code spec Input.line Input.Good :=
  ⟨fun c _ good => Input.key_refines good c,fun held _ good => Input.take_refines good held⟩

/-- What a call that was not killed returns: no `C('D')`, an end of line only at the end,
    at most n bytes, and it has stopped for one of these. A `C('D')` is
    left in the queue unless there is nothing else to return. -/
structure Returned (n : Int) (got took queue : List UInt8) : Prop where
  short : got.length ≤ n
  noEof : C 'D' ∉ got
  oneLine : NL ∉ got.dropLast
  ends : took = got ∧ (got.getLast? = some NL ∨ got.length = n ∨ got ≠ [] ∧ queue.head? = some (C 'D')) ∨
    got = [] ∧ took = [C 'D']

structure Begun (n : Int) (got took : List UInt8) : Prop where
  took : took = got
  short : 0 < n → got.length ≤ n
  noEof : C 'D' ∉ got
  noLine : NL ∉ got

def Pc.Fine (queue took : List UInt8) : Pc → Prop
  | .wantsRead n got => Begun n got took
  | .read n got => Begun n got took
  | .asleep n got => Begun n got took
  | .done n (some got) => 0 < n → Returned n got took queue
  | _ => True

section
variable {queue took : List UInt8} {pc : Pc}

theorem wake_inside (pc : Pc) : (wake pc).Inside ↔ pc.Inside := by cases pc <;> rfl

theorem Pc.Fine.wake (fine : pc.Fine queue took) : (wake pc).Fine queue took := by
  cases pc <;> exact fine

theorem Pc.Fine.frame {queue' : List UInt8} (fine : pc.Fine queue took) (outside : ¬ pc.Inside) : pc.Fine queue' took := by
  cases pc with
  | done n got => exact absurd trivial outside
  | _ => exact fine

theorem Enters.inside {pc' : Pc} (enters : Enters pc pc') : pc'.Inside := by cases enters <;> trivial

theorem Enters.fine {pc' : Pc} (enters : Enters pc pc') (fine : pc.Fine queue took) : pc'.Fine queue took := by
  cases enters <;> exact fine

theorem Last.inside (last : Last pc) : pc.Inside := by cases last <;> trivial

theorem Begun.empty (n : Int) : Begun n [] [] :=
  ⟨rfl,fun positive => Int.le_of_lt positive,not_mem_nil,not_mem_nil⟩

theorem Begun.enough {n : Int} {got : List UInt8} (begun : Begun n got took) (all : ¬ got.length < n) (positive : 0 < n) :
    Returned n got took queue := by
  refine ⟨begun.short positive,begun.noEof,fun member => begun.noLine (dropLast_subset _ member),.inl ⟨begun.took,.inr (.inl ?_)⟩⟩
  exact Int.le_antisymm (begun.short positive) (not_lt.mp all)

theorem Begun.snoc {n : Int} {got : List UInt8} {c : UInt8} (begun : Begun n got took) (more : got.length < n) (byte : c ≠ C 'D') :
    (if c = NL then Pc.done n (some (got ++ [c])) else Pc.read n (got ++ [c])).Fine queue (took ++ [c]) := by
  have short : ((got ++ [c]).length : Int) ≤ n := by
    rw [length_append,length_singleton]
    omega
  have noEof : C 'D' ∉ got ++ [c] := by
    simp only [mem_append,mem_singleton,not_or]
    exact ⟨begun.noEof,fun same => byte same.symm⟩
  split
  · rename_i isLine
    refine fun _ => ⟨short,noEof,?_,.inl ⟨by rw [begun.took],.inl ?_⟩⟩
    · rw [dropLast_concat]
      exact begun.noLine
    · rw [getLast?_concat,isLine]
  · rename_i inLine
    refine ⟨by rw [begun.took],fun _ => short,noEof,?_⟩
    simp only [mem_append,mem_singleton,not_or]
    exact ⟨begun.noLine,fun same => inLine same.symm⟩

theorem Begun.eof {n : Int} {got : List UInt8} {held : Bool} (begun : Begun n got took) (more : got.length < n)
    (isHeld : held = decide (n - got.length < n)) (first : held = true → queue.head? = some (C 'D')) :
    Returned n got (took ++ if held then [] else [C 'D']) queue := by
  refine ⟨Int.le_of_lt more,begun.noEof,fun member => begun.noLine (dropLast_subset _ member),?_⟩
  cases held with
  | true =>
    have some : got ≠ [] := by
      rintro rfl
      simp at isHeld
    rw [if_pos rfl,append_nil]
    exact .inl ⟨begun.took,.inr (.inr ⟨some,first rfl⟩)⟩
  | false =>
    have nothing : got = [] := by
      have zero := of_decide_eq_false isHeld.symm
      exact length_eq_zero_iff.mp (by omega)
    rw [if_neg Bool.false_ne_true,begun.took,nothing]
    exact .inr ⟨rfl,rfl⟩

end

variable {P : Type} [DecidableEq P]

structure Calls (s : State Line P) : Prop where
  inside : Guards s.lock fun q => (s.pc q).Inside
  fine : ∀ q, (s.pc q).Fine s.input.queue (s.took q)

section
variable {s s' : State Line P} {q : P}

/-- One call moves, and wakes others or not; the queue changes only for one that has the lock. -/
theorem Calls.others (calls : Calls s) (others : ∀ r, r ≠ q → s'.pc r = s.pc r ∨ s'.pc r = wake (s.pc r))
    (took : ∀ r, r ≠ q → s'.took r = s.took r) (queue : s'.input.queue = s.input.queue ∨ (s.pc q).Inside)
    (mine : (s'.pc q).Fine s'.input.queue (s'.took q)) : ∀ r, (s'.pc r).Fine s'.input.queue (s'.took r) := by
  intro r
  by_cases same : r = q
  · rw [same]
    exact mine
  have framed : (s.pc r).Fine s'.input.queue (s.took r) := by
    rcases queue with queue | inside
    · rw [queue]
      exact calls.fine r
    · exact (calls.fine r).frame fun there => same (calls.inside.alone inside there)
  rw [took r same]
  rcases others r same with stays | woken
  · rw [stays]
    exact framed
  · rw [woken]
    exact framed.wake

theorem take_head {l l' : Line} {held : Bool} {c : UInt8} (taken : l.take held = some (c,l')) :
    (if c = C 'D' ∧ held then [] else [c]) ++ l'.queue = l.queue ∧ (c = C 'D' → held = true → l'.queue.head? = some (C 'D')) := by
  obtain ⟨queue,pending⟩ := l
  cases queue with
  | nil => cases taken
  | cons first rest =>
    obtain ⟨rfl,rfl⟩ := Prod.mk.inj (Option.some.inj taken)
    split
    · rename_i both
      exact ⟨rfl,fun _ _ => congrArg some both.1⟩
    · rename_i out
      exact ⟨rfl,fun isEof isHeld => absurd ⟨isEof,isHeld⟩ out⟩

theorem Calls.stays (calls : Calls s) {f : P → Pc} {pc : Pc} (lock : s'.lock = s.lock) (moved : s'.pc = update f q pc)
    (woken : ∀ r, f r = s.pc r ∨ f r = wake (s.pc r)) (here : pc.Inside ↔ (s.pc q).Inside)
    (took : ∀ r, r ≠ q → s'.took r = s.took r) (queue : s'.input.queue = s.input.queue ∨ (s.pc q).Inside)
    (mine : pc.Fine s'.input.queue (s'.took q)) : Calls s' := by
  refine ⟨?_,calls.others (fun r other => ?_) took queue (by rwa [moved,update_self])⟩
  · rw [lock,moved]
    refine calls.inside.stays (q := q) (by rwa [update_self]) fun r other => ?_
    rw [update_of_ne other]
    rcases woken r with same | same
    · rw [same]
    · rw [same,wake_inside]
  · rw [moved,update_of_ne other]
    exact woken r

theorem Calls.locks (calls : Calls s) {pc : Pc} {lock : Option P}
    (guards : Guards lock fun r => (update s.pc q pc r).Inside) (mine : pc.Fine s.input.queue (s.took q)) :
    Calls { s.goto q pc with lock := lock } := by
  refine ⟨guards,calls.others (q := q) (fun r other => .inl ?_) (fun _ _ => rfl) (.inl rfl) ?_⟩
  · exact update_of_ne other ..
  · simpa [State.goto] using mine

theorem Calls.step (calls : Calls s) (moves : Moves spec s s') : Calls s' := by
  have others {q : P} (pc : Pc) := update_others (q := q) (f := Pc.Inside) (fun _ => Iff.rfl) s.pc pc
  have elsewhere {q : P} {took : List UInt8} (r : P) (other : r ≠ q) : update s.took q took r = s.took r :=
    update_of_ne other ..
  cases moves with
  | @begins q pc here first =>
    refine calls.stays rfl rfl (fun _ => .inl rfl) ?_ elsewhere (.inl rfl) ?_
    · rw [here]
      cases first <;> rfl
    · simp only [update_self]
      cases first with
      | intr => trivial
      | read => exact Begun.empty _
  | @kill q =>
    exact calls.stays rfl rfl (fun _ => .inl rfl) (wake_inside _) (fun _ _ => rfl) (.inl rfl) (calls.fine q).wake
  | @acquires q pc enters free =>
    refine calls.locks (calls.inside.enters free ?_ (others pc)) (enters.fine (calls.fine q))
    rw [update_self]
    exact enters.inside
  | @leaves q last =>
    refine calls.locks (calls.inside.leaves last.inside ?_ (others _)) trivial
    rw [update_self]
    exact id
  | @types q c keys here =>
    refine calls.stays rfl rfl (fun r => ?_) (by rw [here]; rfl) (fun _ _ => rfl) (.inr (by rw [here]; trivial)) trivial
    split
    · exact .inr rfl
    · exact .inl rfl
  | @gives_up q n got here =>
    exact calls.stays rfl rfl (fun _ => .inl rfl) (by rw [here]; rfl) (fun _ _ => rfl) (.inl rfl) trivial
  | @sleeps q n got here =>
    have fine := calls.fine q
    rw [here] at fine
    refine calls.locks (calls.inside.leaves (by rw [here]; trivial) ?_ (others _)) fine
    rw [update_self]
    exact id
  | @enough q n got here all =>
    have fine := calls.fine q
    rw [here] at fine
    exact calls.stays rfl rfl (fun _ => .inl rfl) (by rw [here]; rfl) (fun _ _ => rfl) (.inl rfl) fun positive =>
      Begun.enough fine all positive
  | @eof q n got held input here more isHeld taken =>
    have fine := calls.fine q
    rw [here] at fine
    refine calls.stays rfl rfl (fun _ => .inl rfl) (by rw [here]; rfl) elsewhere (.inr (by rw [here]; trivial)) fun _ => ?_
    simp only [State.takes,update_self]
    exact Begun.eof fine more isHeld ((take_head taken).2 rfl)
  | @takes q n got held c input here more taken byte =>
    have fine := calls.fine q
    rw [here] at fine
    refine calls.stays rfl rfl (fun _ => .inl rfl) ?_ elsewhere (.inr (by rw [here]; trivial)) ?_
    · rw [here]
      split <;> rfl
    · simp only [State.takes,update_self]
      exact Begun.snoc fine more byte

theorem Reachable.calls {input : Line} {killed : P → Bool} (reachable : Reachable spec input killed s) : Calls s := by
  refine Steps.Reachable.invariant (I := Calls) reachable ⟨?_,?_⟩ fun _ _ _ _ calls _ taken => calls.step (moves_of_step taken)
  · exact fun _ => ⟨nofun,nofun⟩
  · exact fun _ => trivial

/-- From one state to a later one, the bytes that were committed or are added behind them
    leave the queue in their order. -/
def Conserved (s s' : State Line P) : Prop :=
  ∃ added gone, s'.taken = s.taken ++ gone ∧ s.input.queue ++ added = gone ++ s'.input.queue

theorem Conserved.refl (s : State Line P) : Conserved s s := ⟨[],[],by simp,by simp⟩

theorem Conserved.trans {s'' : State Line P} (one : Conserved s s') (two : Conserved s' s'') : Conserved s s'' := by
  obtain ⟨added,gone,taken,queue⟩ := one
  obtain ⟨added',gone',taken',queue'⟩ := two
  refine ⟨added ++ added',gone ++ gone',by rw [taken',taken,append_assoc],?_⟩
  rw [← append_assoc,queue,append_assoc,queue',append_assoc]

theorem key_queue (c : UInt8) (l : Line) : ∃ added, (l.key c).1.queue = l.queue ++ added := by
  have same : ∃ added, l.queue = l.queue ++ added := ⟨[],(append_nil _).symm⟩
  unfold Line.key
  split_ifs
  · exact same
  · exact same
  · exact same
  · exact same
  all_goals
    unfold Line.store
    dsimp only
    split
    · exact ⟨_,rfl⟩
    · exact same

theorem Conserved.step (moves : Moves spec s s') : Conserved s s' := by
  cases moves with
  | @types q c keys here =>
    obtain ⟨added,queue⟩ := key_queue c s.input
    exact ⟨added,[],(append_nil _).symm,queue.symm⟩
  | @eof q n got held input here more isHeld taken =>
    refine ⟨[],_,rfl,?_⟩
    rw [append_nil,← (take_head taken).1]
    simp [State.takes]
  | @takes q n got held c input here more taken byte =>
    refine ⟨[],_,rfl,?_⟩
    rw [append_nil,← (take_head taken).1,if_neg fun both => byte both.1]
    rfl
  | _ => exact ⟨[],[],(append_nil _).symm,append_nil _⟩

end

section
variable {s s' : State Input P} {killed : P → Bool}

def Input.zero : Input := ⟨fun _ => 0,0,0,0⟩

theorem Input.zero_good : Input.zero.Good := by
  have nothing : Input.zero.line = ⟨[],[]⟩ :=
    congrArg₂ Line.mk (Ring.content_eq_nil.mpr rfl) (Ring.content_eq_nil.mpr rfl)
  refine ⟨ordered_iff.mpr ?_,?_⟩
  · rw [nothing]
    exact Nat.zero_le _
  · rw [nothing]
    exact not_mem_nil

theorem later_conserved (good : s.input.Good) (later : Later code s s') :
    s'.input.Good ∧ Conserved (s.map Input.line) (s'.map Input.line) := by
  induction later with
  | start => exact ⟨good,.refl _⟩
  | @step t t' a before _ taken ih =>
    have mapped : step spec (t.map Input.line) a = some (.ok (t'.map Input.line)) := by
      obtain ⟨u,goes,same⟩ := Option.map_eq_some_iff.mp taken
      cases same
      rw [step,code_refines.next ih.1,goes]
      rfl
    exact ⟨code_refines.good ih.1 (moves_of_step taken),ih.2.trans (.step (moves_of_step mapped))⟩

/-- In every run the ring is a queue and a pending line: its indices are in order, every step
    is the step of the calls with the queue and the line, the committed bytes leave the
    queue in their order, and `consoleread` returns what it has removed. -/
theorem line_discipline (reachable : Reachable code Input.zero killed s) :
    s.input.Ordered ∧
      (∀ a, next spec (s.map Input.line) a = (next code s a).map (State.map Input.line)) ∧
      (∀ s', Later code s s' → Conserved (s.map Input.line) (s'.map Input.line)) ∧
      ∀ q n got, s.pc q = .done n (some got) → 0 < n → Returned n got (s.took q) s.input.line.queue := by
  obtain ⟨good,mapped⟩ := code_refines.reachable Input.zero_good reachable
  refine ⟨good.ordered,code_refines.next good,fun s' later => (later_conserved good later).2,?_⟩
  intro q n got here positive
  have fine := mapped.calls.fine q
  rw [show (s.map Input.line).pc q = _ from here] at fine
  exact fine positive

def endOfFile : List (Action Bool) :=
  .consoleintr false [97,C 'D'] :: List.replicate 4 (.turn false) ++ .consoleread true 5 :: List.replicate 3 (.turn true)

theorem line_discipline_end_of_file :
    ∃ s, Steps.run (step code) (fun _ _ => True) (State.init Input.zero fun _ => false) endOfFile = some s ∧
      s.pc true = .done 5 (some [97]) ∧ Returned 5 [97] (s.took true) s.input.line.queue := by
  have taken : ∃ s, Steps.run (step code) (fun _ _ => True) (State.init Input.zero fun _ => false) endOfFile = some s ∧
      s.pc true = .done 5 (some [97]) := ⟨_,rfl,rfl⟩
  obtain ⟨s,run,here⟩ := taken
  obtain ⟨_,_,_,returns⟩ := line_discipline (Steps.reachable_run .start run)
  exact ⟨s,run,here,returns true 5 [97] here (by decide)⟩

end

end Osce.Console
