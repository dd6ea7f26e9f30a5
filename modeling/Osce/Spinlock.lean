import Osce.Lib.Mutex
import Osce.Lib.Steps

/-!
Spin locks: `spinlock.c` on any number of CPUs. A step is one store to the lock, with the tests
that the CPU makes before it, or one step of a section, which is a list of steps on
the data that the lock protects. A CPU may ask for any section at any time. `pushcli` and `popcli`
touch only the CPU itself and are left out, with the panics of `popcli`: `Osce.Procs.Interrupts` has
them and shows that the `popcli` of a `release` does not panic.
-/
namespace Osce.Spinlock
open Osce.Lib

variable {C σ : Type} [DecidableEq C]

/-- Where a CPU stands: in `acquire` at `xchg` and at the store to `lk->cpu`, in the section or
    at its end, and in `release` at `xchg`. -/
inductive Place (σ : Type) where
  | outside
  | spin (todo : List (σ → σ))
  | record (todo : List (σ → σ))
  | inside (todo : List (σ → σ))
  | unlock

/-- The lock, the CPUs and the data. The rest is history: the sections in the order in which
    `xchg` has let them in. -/
structure State (C σ : Type) where
  locked : Bool
  cpu : Option C
  place : C → Place σ
  data : σ
  entered : List (List (σ → σ))

def initlock (data : σ) : State C σ := ⟨false,none,fun _ => .outside,data,[]⟩

def holding (s : State C σ) (c : C) : Bool := s.locked && s.cpu == some c

@[simp] def State.goto (s : State C σ) (c : C) (place : Place σ) : State C σ := { s with place := Function.update s.place c place }

inductive Action (C σ : Type) where
  | acquire (c : C) (todo : List (σ → σ))
  | turn (c : C)

def step (s : State C σ) : Action C σ → Option (Except String (State C σ))
  | .acquire c todo =>
    match s.place c with
    | .outside => if holding s c then some (.error "acquire") else some (.ok (s.goto c (.spin todo)))
    | _ => none
  | .turn c =>
    match s.place c with
    | .outside => none
    | .spin todo =>
      -- `xchg` stores 1 in any case
      if s.locked then some (.ok s)
      else some (.ok ({ s with locked := true, entered := s.entered ++ [todo] }.goto c (.record todo)))
    | .record todo => some (.ok ({ s with cpu := some c }.goto c (.inside todo)))
    | .inside (f :: todo) => some (.ok ({ s with data := f s.data }.goto c (.inside todo)))
    | .inside [] => if holding s c then some (.ok ({ s with cpu := none }.goto c .unlock)) else some (.error "release")
    | .unlock => some (.ok ({ s with locked := false }.goto c .outside))

/-- The steps one after the other. -/
def run (fs : List (σ → σ)) (data : σ) : σ := fs.foldl (fun data f => f data) data

/-- The CPU has set `locked`. -/
@[simp] def Place.locks : Place σ → Bool
  | .outside | .spin _ => false
  | _ => true

/-- The CPU has stored itself in `lk->cpu`. -/
@[simp] def Place.records : Place σ → Bool
  | .inside _ => true
  | _ => false

/-- What is left of the section. -/
@[simp] def Place.todo : Place σ → List (σ → σ)
  | .record todo | .inside todo => todo
  | _ => []

structure Inv (start : σ) (s : State C σ) (holder : Option C) : Prop where
  locked : s.locked = holder.isSome
  holds : Guards holder fun c => (s.place c).locks = true
  cpu : Guards s.cpu fun c => (s.place c).records = true
  data : run (holder.elim [] fun c => (s.place c).todo) s.data = run s.entered.flatten start

section
variable {start : σ} {s s' : State C σ} {holder : Option C} {c : C}

theorem Place.locks_of_records {place : Place σ} (records : place.records = true) : place.locks = true := by
  cases place <;> simp at records ⊢

omit [DecidableEq C] in
theorem Inv.holder_eq (inv : Inv start s holder) (locks : (s.place c).locks = true) : holder = some c := (inv.holds c).mp locks

theorem Inv.holding_eq (inv : Inv start s holder) : holding s c = (s.place c).records := by
  rw [Bool.eq_iff_iff,holding,Bool.and_eq_true,beq_iff_eq,← inv.cpu c,inv.locked]
  exact ⟨And.right,fun recorded => ⟨by rw [inv.holder_eq (Place.locks_of_records recorded)]; rfl,recorded⟩⟩

theorem goto_others {f : Place σ → Bool} {place : Place σ} (d : C) (other : d ≠ c) :
    f (Function.update s.place c place d) = true ↔ f (s.place d) = true := by
  rw [Function.update_of_ne other]

theorem goto_todo {old new : Place σ} (here : s.place c = old) (same : new.todo = old.todo) (d : C) :
    (Function.update s.place c new d).todo = (s.place d).todo := by
  by_cases isC : d = c
  · rw [isC,Function.update_self,same,here]
  · rw [Function.update_of_ne isC]

theorem Inv.step {a : Action C σ} (inv : Inv start s holder) (taken : step s a = some (.ok s')) : ∃ holder, Inv start s' holder := by
  rcases a with ⟨c,todo⟩ | c <;> simp only [Spinlock.step] at taken
  · split at taken
    case h_2 => cases taken
    case h_1 here =>
      split at taken <;> cases taken
      refine ⟨holder,inv.locked,inv.holds.stays ?_ goto_others,inv.cpu.stays ?_ goto_others,?_⟩
      · simp [here]
      · simp [here]
      · simpa only [State.goto,goto_todo here (rfl : (Place.spin todo).todo = [])] using inv.data
  · split at taken
    case h_1 => cases taken
    case h_2 todo here =>
      split at taken <;> cases taken
      · exact ⟨holder,inv⟩
      · obtain rfl : holder = none := by simpa [inv.locked] using ‹¬ s.locked = true›
        refine ⟨some c,rfl,inv.holds.enters rfl ?_ goto_others,inv.cpu.stays ?_ goto_others,?_⟩
        · simp
        · simp [here]
        · have before : s.data = run s.entered.flatten start := inv.data
          simp [before,run]
    case h_3 todo here =>
      cases taken
      obtain rfl := inv.holder_eq (c := c) (by simp [here])
      -- the last holder has taken its name away
      have nobody : s.cpu = none := by
        refine Option.eq_none_iff_forall_ne_some.mpr fun d isD => ?_
        have recorded := (inv.cpu d).mpr isD
        obtain rfl : c = d := Option.some.inj (inv.holder_eq (Place.locks_of_records recorded))
        simp [here] at recorded
      refine ⟨some c,inv.locked,inv.holds.stays ?_ goto_others,inv.cpu.enters nobody ?_ goto_others,?_⟩
      · simp [here]
      · simp
      · simpa [here] using inv.data
    case h_4 f todo here =>
      cases taken
      obtain rfl := inv.holder_eq (c := c) (by simp [here])
      refine ⟨some c,inv.locked,inv.holds.stays ?_ goto_others,inv.cpu.stays ?_ goto_others,?_⟩
      · simp [here]
      · simp [here]
      · simpa [here,run] using inv.data
    case h_5 here =>
      split at taken <;> cases taken
      obtain rfl := inv.holder_eq (c := c) (by simp [here])
      refine ⟨some c,inv.locked,inv.holds.stays ?_ goto_others,inv.cpu.leaves (q := c) ?_ ?_ goto_others,?_⟩
      · simp [here]
      · simp [here]
      · simp
      · simpa [here] using inv.data
    case h_6 here =>
      cases taken
      obtain rfl := inv.holder_eq (c := c) (by simp [here])
      refine ⟨none,rfl,inv.holds.leaves (q := c) ?_ ?_ goto_others,inv.cpu.stays ?_ goto_others,?_⟩
      · simp [here]
      · simp
      · simp [here]
      · simpa [here] using inv.data

/-- In every interleaving the sections take effect one after the other, in the order in which
    `xchg` has let them in: with what is left of the last one the data are as after all of
    them. At most one CPU is inside, `holding` is true of the CPU that has recorded
    itself and of no other, and neither `acquire` nor `release` panics. -/
theorem sections_serial (reachable : Steps.Reachable step (fun _ _ => True) (initlock start : State C σ) s) :
    (s.locked = false → s.data = run s.entered.flatten start) ∧
    (∀ c todo, s.place c = .inside todo → run todo s.data = run s.entered.flatten start ∧
      ∀ d todo, s.place d = .inside todo → d = c) ∧
    (∀ c, holding s c = (s.place c).records) ∧
    ∀ a text, step s a ≠ some (.error text) := by
  obtain ⟨holder,inv⟩ : ∃ holder, Inv start s holder := by
    refine reachable.invariant (I := fun s => ∃ holder, Inv start s holder) ⟨none,rfl,fun c => ?_,fun c => ?_,rfl⟩ ?_
    · simp [initlock]
    · simp [initlock]
    · rintro s a s' - ⟨holder,inv⟩ - taken
      exact inv.step taken
  refine ⟨fun free => ?_,fun c todo here => ⟨?_,fun d todo' there => ?_⟩,fun c => inv.holding_eq,fun a text stops => ?_⟩
  · obtain rfl : holder = none := by simpa [inv.locked] using free
    exact inv.data
  · have data := inv.data
    rwa [inv.holder_eq (c := c) (by simp [here]),Option.elim_some,here] at data
  · exact inv.cpu.alone (by simp [here]) (by simp [there])
  · rcases a with ⟨c,todo⟩ | c <;> simp only [step] at stops
    · split at stops
      case h_1 here =>
        rw [inv.holding_eq,here] at stops
        cases stops
      case h_2 => cases stops
    · split at stops
      case h_2 => split at stops <;> cases stops
      case h_5 here =>
        rw [inv.holding_eq,here] at stops
        cases stops
      all_goals cases stops

end

/-- Two CPUs that count: the second one waits for the first one. -/
theorem sections_serial_two : ∃ s : State (Fin 2) Nat, s.place 0 = .inside [] ∧ s.place 1 = .spin [(· + 2)] ∧
    s.data = 1 ∧ ∀ a text, step s a ≠ some (.error text) := by
  have run := Steps.reachable_run .start (rfl : Steps.run step (fun _ _ => True) (initlock 0 : State (Fin 2) Nat)
    [.acquire 0 [(· + 1)],.acquire 1 [(· + 2)],.turn 0,.turn 1,.turn 0,.turn 0] = some _)
  exact ⟨_,rfl,rfl,rfl,(sections_serial run).2.2.2⟩

end Osce.Spinlock
