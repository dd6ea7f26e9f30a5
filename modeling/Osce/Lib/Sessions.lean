import Osce.Lib.Prog

/-!
Processes that call programs over one shared state, one call at a time each, in any
interleaving of the operations of their calls. The rule for an invariant gives each call
a ghost state and each operation a contract in terms of it.
-/
namespace Osce.Lib
open Function
set_option linter.unusedSectionVars false

namespace Prog

variable {S : Sig} {L α β : Type}

/-- What each operation asks of the ghost state of its caller, and what it leaves there. -/
structure Contract (S : Sig) (L : Type) where
  pre : S.Op → L → Prop
  post : (op : S.Op) → L → S.Ans op → L → Prop

/-- The program has what its operations ask for, and ends with `Q`. -/
def Meets (k : Contract S L) : Prog S α → (α → L → Prop) → L → Prop
  | .ret a, Q, l => Q a l
  | .call op next, Q, l => k.pre op l ∧ ∀ a l', k.post op l a l' → Meets k (next a) Q l'

variable {k : Contract S L}

theorem meets_bind {first : Prog S α} {f : α → Prog S β} {Q : β → L → Prop} {l : L}
    (holds : Meets k first (fun a l' => Meets k (f a) Q l') l) : Meets k (first >>= f) Q l := by
  induction first generalizing l with
  | ret a => exact holds
  | call op next ih => exact ⟨holds.1,fun a l' after => ih a (holds.2 a l' after)⟩

theorem meets_mono {p : Prog S α} {Q R : α → L → Prop} {l : L} (holds : Meets k p Q l)
    (weaker : ∀ a l', Q a l' → R a l') : Meets k p R l := by
  induction p generalizing l with
  | ret a => exact weaker a l holds
  | call op next ih => exact ⟨holds.1,fun a l' after => ih a (holds.2 a l' after)⟩

end Prog

open Prog

variable {S : Sig} {σ P C L α : Type}

/-- What the processes can do: the programs of the calls, the effect of their operations,
    when a call may begin and what its end does to the shared state, and what happens
    to the shared state from outside. -/
structure Rules (S : Sig) (σ P C α : Type) where
  handle : P → Handler S σ
  code : C → Prog S α
  begins : P → C → σ → σ → Prop
  ends : P → C → α → σ → σ → Prop
  moves : σ → σ → Prop

/-- The calls that are under way, with the rest of their programs. -/
structure Sessions (S : Sig) (σ P C α : Type) where
  threads : P → Option (C × Prog S α)
  shared : σ

variable [DecidableEq P]

inductive Sessions.Step (rules : Rules S σ P C α) : Sessions S σ P C α → Sessions S σ P C α → Prop where
  | begins {w : Sessions S σ P C α} {p : P} {c : C} {s' : σ} (idle : w.threads p = none)
      (begun : rules.begins p c w.shared s') : Step rules w ⟨Function.update w.threads p (some (c,rules.code c)),s'⟩
  | operates {w : Sessions S σ P C α} {p : P} {c : C} {op : S.Op} {next : S.Ans op → Prog S α} {a : S.Ans op} {s' : σ}
      (running : w.threads p = some (c,.call op next)) (answered : rules.handle p op w.shared = .ok (a,s')) :
      Step rules w ⟨Function.update w.threads p (some (c,next a)),s'⟩
  | ends {w : Sessions S σ P C α} {p : P} {c : C} {a : α} {s' : σ} (running : w.threads p = some (c,.ret a))
      (ended : rules.ends p c a w.shared s') : Step rules w ⟨Function.update w.threads p none,s'⟩
  | moves {w : Sessions S σ P C α} {s' : σ} (moved : rules.moves w.shared s') : Step rules w ⟨w.threads,s'⟩

inductive Sessions.Reachable (rules : Rules S σ P C α) (start : Sessions S σ P C α) : Sessions S σ P C α → Prop where
  | start : Reachable rules start start
  | step {w w' : Sessions S σ P C α} (before : Reachable rules start w) (taken : Step rules w w') : Reachable rules start w'

/-- A process is about to perform an operation that stops. -/
def Sessions.Stops (rules : Rules S σ P C α) (w : Sessions S σ P C α) (e : Stop) : Prop :=
  ∃ p c op next, w.threads p = some (c,.call op next) ∧ rules.handle p op w.shared = .error e

/-- The proof obligations of an invariant. The ghost states are those of the calls under way. -/
structure Keeps (rules : Rules S σ P C α) (k : Contract S L) (Inv : (P → Option L) → σ → Prop) (bad : Stop → Prop)
    (Q : P → C → α → L → Prop) : Prop where
  begins : ∀ ghosts s p c s', Inv ghosts s → ghosts p = none → rules.begins p c s s' →
    ∃ l, Inv (Function.update ghosts p (some l)) s' ∧ Meets k (rules.code c) (Q p c) l
  answers : ∀ ghosts s p l op a s', Inv ghosts s → ghosts p = some l → k.pre op l → rules.handle p op s = .ok (a,s') →
    ∃ l', k.post op l a l' ∧ Inv (Function.update ghosts p (some l')) s'
  stops : ∀ ghosts s p l op e, Inv ghosts s → ghosts p = some l → k.pre op l → rules.handle p op s = .error e → ¬ bad e
  ends : ∀ ghosts s p c a l s', Inv ghosts s → ghosts p = some l → Q p c a l → rules.ends p c a s s' →
    Inv (Function.update ghosts p none) s'
  moves : ∀ ghosts s s', Inv ghosts s → rules.moves s s' → Inv ghosts s'

section
variable {rules : Rules S σ P C α} {k : Contract S L} {Inv : (P → Option L) → σ → Prop} {bad : Stop → Prop}
  {Q : P → C → α → L → Prop} {w w' start : Sessions S σ P C α}

/-- The rest of a call meets the contracts from its ghost state; there is none without a call. -/
def Fits (k : Contract S L) (Q : C → α → L → Prop) : Option (C × Prog S α) → Option L → Prop
  | none, l => l = none
  | some (c,prog), l => ∃ l₀, l = some l₀ ∧ Meets k prog (Q c) l₀

/-- The ghost states satisfy the invariant together with the shared state, and every call
    meets the contracts from its own. -/
def Sessions.Good (k : Contract S L) (Inv : (P → Option L) → σ → Prop) (Q : P → C → α → L → Prop)
    (w : Sessions S σ P C α) : Prop :=
  ∃ ghosts, Inv ghosts w.shared ∧ ∀ p, Fits k (Q p) (w.threads p) (ghosts p)

theorem Sessions.good_step (keeps : Keeps rules k Inv bad Q) (good : w.Good k Inv Q) (step : Step rules w w') :
    w'.Good k Inv Q := by
  obtain ⟨ghosts,inv,fits⟩ := good
  -- the other processes keep their ghost states
  have others {p : P} {thread : Option (C × Prog S α)} {l : Option L} (mine : Fits k (Q p) thread l) (q : P) :
      Fits k (Q q) (update w.threads p thread q) (update ghosts p l q) := by
    by_cases same : q = p
    · subst same
      rwa [update_self,update_self]
    · rw [update_of_ne same,update_of_ne same]
      exact fits q
  cases step with
  | @begins p c s' idle begun =>
    have free := fits p
    rw [idle] at free
    obtain ⟨l,inv',meets⟩ := keeps.begins ghosts w.shared p c s' inv free begun
    exact ⟨update ghosts p (some l),inv',others ⟨l,rfl,meets⟩⟩
  | @operates p c op next a s' running answered =>
    have mine := fits p
    rw [running] at mine
    obtain ⟨l,isL,pre,after⟩ := mine
    obtain ⟨l',post,inv'⟩ := keeps.answers ghosts w.shared p l op a s' inv isL pre answered
    exact ⟨update ghosts p (some l'),inv',others ⟨l',rfl,after a l' post⟩⟩
  | @ends p c a s' running ended =>
    have mine := fits p
    rw [running] at mine
    obtain ⟨l,isL,final⟩ := mine
    exact ⟨update ghosts p none,keeps.ends ghosts w.shared p c a l s' inv isL final ended,others rfl⟩
  | moves moved => exact ⟨ghosts,keeps.moves ghosts w.shared _ inv moved,fits⟩

theorem Sessions.good_reachable (keeps : Keeps rules k Inv bad Q) (quiet : ∀ p, start.threads p = none)
    (first : Inv (fun _ => none) start.shared) (reachable : Reachable rules start w) : w.Good k Inv Q := by
  induction reachable with
  | start =>
    refine ⟨fun _ => none,first,fun p => ?_⟩
    rw [quiet p]
    rfl
  | step _ taken ih => exact good_step keeps ih taken

theorem Sessions.good_quiet (good : w.Good k Inv Q) (quiet : ∀ p, w.threads p = none) : Inv (fun _ => none) w.shared := by
  obtain ⟨ghosts,inv,fits⟩ := good
  have same : ghosts = fun _ => none := funext fun p => by
    have free := fits p
    rwa [quiet p] at free
  rwa [same] at inv

theorem Sessions.good_pre (good : w.Good k Inv Q) {p : P} {c : C} {op : S.Op} {next : S.Ans op → Prog S α}
    (running : w.threads p = some (c,.call op next)) : ∃ ghosts l, Inv ghosts w.shared ∧ ghosts p = some l ∧ k.pre op l := by
  obtain ⟨ghosts,inv,fits⟩ := good
  have mine := fits p
  rw [running] at mine
  obtain ⟨l,isL,pre,_⟩ := mine
  exact ⟨ghosts,l,inv,isL,pre⟩

theorem Sessions.good_stops (keeps : Keeps rules k Inv bad Q) (good : w.Good k Inv Q) {e : Stop}
    (stops : w.Stops rules e) : ¬ bad e := by
  obtain ⟨p,c,op,next,running,stopped⟩ := stops
  obtain ⟨ghosts,l,inv,isL,pre⟩ := good_pre good running
  exact keeps.stops ghosts w.shared p l op e inv isL pre stopped

end

section
variable {rules : Rules S σ P C α} {start w : Sessions S σ P C α} {p : P} {c : C}

theorem Sessions.reachable_exec {prog : Prog S α} {a : α} {s s' : σ} {threads : P → Option (C × Prog S α)}
    (before : Reachable rules start ⟨threads,s⟩) (running : threads p = some (c,prog))
    (run : exec (rules.handle p) prog s = .ok (a,s')) :
    Reachable rules start ⟨update threads p (some (c,.ret a)),s'⟩ := by
  induction prog generalizing s threads with
  | ret b =>
    cases run
    rwa [← running,update_eq_self]
  | call op next ih =>
    rw [exec_call] at run
    cases answered : rules.handle p op s with
    | error e => rw [answered] at run; cases run
    | ok r =>
      rw [answered] at run
      have one : Reachable rules start ⟨update threads p (some (c,next r.1)),r.2⟩ :=
        .step before (.operates (w := ⟨threads,s⟩) running answered)
      have rest := ih r.1 one (update_self ..) run
      rwa [update_idem] at rest

/-- A call that begins when its process is idle and runs alone to its end. -/
theorem Sessions.reachable_call {threads : P → Option (C × Prog S α)} {s s₁ s₂ s' : σ} {a : α}
    (before : Reachable rules start ⟨threads,s⟩) (idle : threads p = none) (begun : rules.begins p c s s₁)
    (run : exec (rules.handle p) (rules.code c) s₁ = .ok (a,s₂)) (ended : rules.ends p c a s₂ s') :
    Reachable rules start ⟨threads,s'⟩ := by
  have one : Reachable rules start ⟨update threads p (some (c,rules.code c)),s₁⟩ :=
    .step before (.begins (w := ⟨threads,s⟩) idle begun)
  have two := reachable_exec one (update_self ..) run
  rw [update_idem] at two
  have three := Reachable.step two (.ends (update_self ..) ended)
  dsimp only at three
  rwa [update_idem,← idle,update_eq_self] at three

end

end Osce.Lib
