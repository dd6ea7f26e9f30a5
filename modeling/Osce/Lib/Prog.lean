import Mathlib

/-!
Programs that act on a shared state only through the operations of an interface. A
program is the tree of its operations, and can be run alone, stopped between two of
them, interleaved with others, or run over another implementation of the interface.
-/
namespace Osce.Lib

/-- The operations of an interface, and the type of each one's answer. -/
structure Sig where
  Op : Type
  Ans : Op → Type

/-- A program over an interface: it has returned, or it performs an operation and
    goes on with the answer. -/
inductive Prog (S : Sig) (α : Type) where
  | ret (value : α)
  | call (op : S.Op) (next : S.Ans op → Prog S α)

/-- Why an operation gives no answer: the machine stops, or the caller has to wait. -/
inductive Stop where
  | panic (message : String)
  | sleep
  deriving DecidableEq, Repr

/-- What an operation does to the state, when it gives an answer. -/
abbrev Handler (S : Sig) (σ : Type) := (op : S.Op) → σ → Except Stop (S.Ans op × σ)

namespace Prog

variable {S T : Sig} {σ τ α β : Type}

def bind : Prog S α → (α → Prog S β) → Prog S β
  | .ret a, f => f a
  | .call op next, f => .call op (fun a => bind (next a) f)

instance : Monad (Prog S) where
  pure := .ret
  bind := bind

def perform (op : S.Op) : Prog S (S.Ans op) := .call op .ret

@[simp] theorem pure_eq (a : α) : (pure a : Prog S α) = .ret a := rfl
@[simp] theorem ret_bind (a : α) (f : α → Prog S β) : (Prog.ret a >>= f) = f a := rfl
@[simp] theorem call_bind (op : S.Op) (next : S.Ans op → Prog S α) (f : α → Prog S β) :
    (Prog.call op next >>= f) = .call op (fun a => next a >>= f) := rfl
@[simp] theorem perform_bind (op : S.Op) (f : S.Ans op → Prog S β) :
    (perform op >>= f) = .call op f := rfl

theorem bind_assoc {γ : Type} (p : Prog S α) (f : α → Prog S β) (g : β → Prog S γ) :
    (p >>= f) >>= g = p >>= fun a => f a >>= g := by
  induction p with
  | ret a => rfl
  | call op next ih => simp only [call_bind,ih]

/-- The run of a program with no other program in between. -/
def exec (h : Handler S σ) : Prog S α → σ → Except Stop (α × σ)
  | .ret a, s => .ok (a,s)
  | .call op next, s =>
    match h op s with
    | .ok (a,s') => exec h (next a) s'
    | .error e => .error e

@[simp] theorem exec_ret (h : Handler S σ) (a : α) (s : σ) : exec h (.ret a) s = .ok (a,s) := rfl

theorem exec_call (h : Handler S σ) (op : S.Op) (next : S.Ans op → Prog S α) (s : σ) :
    exec h (.call op next) s =
      match h op s with
      | .ok (a,s') => exec h (next a) s'
      | .error e => .error e := by
  rw [exec]

theorem exec_bind (h : Handler S σ) (p : Prog S α) (f : α → Prog S β) (s : σ) :
    exec h (p >>= f) s =
      match exec h p s with
      | .ok (a,s') => exec h (f a) s'
      | .error e => .error e := by
  induction p generalizing s with
  | ret a => rfl
  | call op next ih =>
    simp only [call_bind,exec_call]
    cases h op s with
    | ok r => exact ih r.1 r.2
    | error e => rfl

/-- A run of which only the answer has been computed. -/
theorem exec_of_answer {h : Handler S σ} {p : Prog S α} {s : σ} {a : α} (answer : (exec h p s).toOption.map Prod.fst = some a) :
    ∃ s', exec h p s = .ok (a,s') := by
  cases run : exec h p s with
  | error e =>
    rw [run] at answer
    cases answer
  | ok r =>
    rw [run] at answer
    cases answer
    exact ⟨r.2,rfl⟩

/-- The run returns with an answer and a state that satisfy `Q`, or stops for a
    reason in `E`. -/
def Wp (h : Handler S σ) (E : Stop → Prop) (p : Prog S α) (Q : α → σ → Prop) (s : σ) : Prop :=
  match exec h p s with
  | .ok (a,s') => Q a s'
  | .error e => E e

section
variable {h : Handler S σ} {E E' : Stop → Prop}

@[simp] theorem wp_ret (a : α) (Q : α → σ → Prop) (s : σ) : Wp h E (.ret a) Q s ↔ Q a s := Iff.rfl

@[simp] theorem wp_pure (a : α) (Q : α → σ → Prop) (s : σ) : Wp h E (pure a) Q s ↔ Q a s := Iff.rfl

theorem wp_call (op : S.Op) (next : S.Ans op → Prog S α) (Q : α → σ → Prop) (s : σ) :
    Wp h E (.call op next) Q s ↔
      match h op s with
      | .ok (a,s') => Wp h E (next a) Q s'
      | .error e => E e := by
  unfold Wp
  rw [exec_call]
  cases h op s <;> rfl

theorem wp_bind (p : Prog S α) (f : α → Prog S β) (Q : β → σ → Prop) (s : σ) :
    Wp h E (p >>= f) Q s ↔ Wp h E p (fun a s' => Wp h E (f a) Q s') s := by
  unfold Wp
  rw [exec_bind]
  cases exec h p s <;> rfl

theorem wp_mono {p : Prog S α} {Q R : α → σ → Prop} {s : σ} (holds : Wp h E p Q s)
    (weaker : ∀ a s', Q a s' → R a s') : Wp h E p R s := by
  unfold Wp at *
  cases run : exec h p s with
  | ok r => rw [run] at holds; exact weaker r.1 r.2 holds
  | error e => rw [run] at holds; exact holds

theorem wp_any {p : Prog S α} {Q : α → σ → Prop} {s : σ} (always : ∀ a s', Q a s') : Wp h (fun _ => True) p Q s := by
  unfold Wp
  cases exec h p s with
  | ok r => exact always r.1 r.2
  | error e => trivial

theorem wp_returns {p : Prog S α} {Q : α → σ → Prop} {s : σ} (holds : Wp h (fun _ => False) p Q s) :
    ∃ a s', exec h p s = .ok (a,s') ∧ Q a s' := by
  unfold Wp at holds
  cases run : exec h p s with
  | ok r =>
    rw [run] at holds
    exact ⟨r.1,r.2,rfl,holds⟩
  | error e =>
    rw [run] at holds
    exact holds.elim

theorem wp_stops {p : Prog S α} {s : σ} (holds : Wp h E p (fun _ _ => False) s) : ∃ e, exec h p s = .error e ∧ E e := by
  unfold Wp at holds
  cases run : exec h p s with
  | ok r =>
    rw [run] at holds
    exact holds.elim
  | error e =>
    rw [run] at holds
    exact ⟨e,rfl,holds⟩

theorem wp_ok {p : Prog S α} {Q : α → σ → Prop} {s s' : σ} {a : α} (holds : Wp h E p Q s)
    (run : exec h p s = .ok (a,s')) : Q a s' := by
  unfold Wp at holds
  rw [run] at holds
  exact holds

theorem wp_error {p : Prog S α} {Q : α → σ → Prop} {s : σ} {e : Stop} (holds : Wp h E p Q s) (run : exec h p s = .error e) : E e := by
  unfold Wp at holds
  rw [run] at holds
  exact holds

end

/-- Each operation replaced by the program that implements it. -/
def interp (f : (op : S.Op) → Prog T (S.Ans op)) : Prog S α → Prog T α
  | .ret a => .ret a
  | .call op next => f op >>= fun a => interp f (next a)

/-- Operations that are implemented on one part of a larger state. -/
theorem wp_interp {h : Handler S σ} {k : Handler T τ} {f : (op : S.Op) → Prog T (S.Ans op)} (get : τ → σ) (put : τ → σ → τ)
    (getPut : ∀ t s, get (put t s) = s) (putGet : ∀ t, put t (get t) = t) (putPut : ∀ t s s', put (put t s) s' = put t s')
    (step : ∀ op t, exec k (f op) t = match h op (get t) with
      | .ok (a,s) => .ok (a,put t s)
      | .error e => .error e) {E : Stop → Prop} {p : Prog S α} {Q : α → τ → Prop} {t : τ} :
    Wp k E (interp f p) Q t ↔ Wp h E p (fun a s => Q a (put t s)) (get t) := by
  induction p generalizing t with
  | ret a =>
    show Q a t ↔ Q a (put t (get t))
    rw [putGet]
  | call op next ih =>
    show Wp k E (f op >>= fun a => interp f (next a)) Q t ↔ _
    rw [wp_bind,wp_call,Wp,step]
    cases h op (get t) with
    | error e => exact Iff.rfl
    | ok r =>
      show Wp k E (interp f (next r.1)) Q (put t r.2) ↔ _
      rw [ih,getPut]
      simp only [putPut]

/-- If each operation that answers over `h` gives the same answer over `k`, in
    states that stay related, so does every program. -/
theorem exec_sim {h : Handler S σ} {k : Handler S τ} (R : σ → τ → Prop)
    (step : ∀ op s t, R s t → ∀ a s', h op s = .ok (a,s') → ∃ t', k op t = .ok (a,t') ∧ R s' t')
    (p : Prog S α) {s : σ} {t : τ} (related : R s t) {a : α} {s' : σ} (run : exec h p s = .ok (a,s')) :
    ∃ t', exec k p t = .ok (a,t') ∧ R s' t' := by
  induction p generalizing s t with
  | ret b =>
    cases run
    exact ⟨t,rfl,related⟩
  | call op next ih =>
    rw [exec_call] at run
    cases first : h op s with
    | error e => rw [first] at run; cases run
    | ok r =>
      rw [first] at run
      obtain ⟨t',executed,related'⟩ := step op s t related r.1 r.2 first
      obtain ⟨t'',rest,final⟩ := ih r.1 related' run
      exact ⟨t'',by rw [exec_call,executed]; exact rest,final⟩

/-- A run over `h` keeps `D`. If along it a condition `C` on the state after an operation
    held before the operation, and makes it answer over `k` too, then a run that ends in
    such a state is one over `k`. -/
theorem exec_back {h k : Handler S σ} (D C : σ → Prop)
    (step : ∀ op s a s', D s → h op s = .ok (a,s') → D s' ∧ (C s' → C s ∧ k op s = .ok (a,s'))) (p : Prog S α) {s s' : σ}
    {a : α} (run : exec h p s = .ok (a,s')) (first : D s) (final : C s') : C s ∧ exec k p s = .ok (a,s') := by
  induction p generalizing s with
  | ret b =>
    cases run
    exact ⟨final,rfl⟩
  | call op next ih =>
    rw [exec_call] at run
    cases answered : h op s with
    | error e => rw [answered] at run; cases run
    | ok r =>
      rw [answered] at run
      obtain ⟨kept,back⟩ := step op s r.1 r.2 first answered
      obtain ⟨between,rest⟩ := ih r.1 run kept
      obtain ⟨before,same⟩ := back between
      exact ⟨before,by rw [exec_call,same]; exact rest⟩

/-- The programs perform the same operations, and return related values. -/
inductive Rel (R : α → β → Prop) : Prog S α → Prog S β → Prop where
  | ret {a : α} {b : β} (related : R a b) : Rel R (.ret a) (.ret b)
  | call {op : S.Op} {next : S.Ans op → Prog S α} {next' : S.Ans op → Prog S β} (rest : ∀ a, Rel R (next a) (next' a)) :
      Rel R (.call op next) (.call op next')

theorem rel_bind {R : α → β → Prop} {γ : Type} (p : Prog S γ) {f : γ → Prog S α} {g : γ → Prog S β} (rest : ∀ c, Rel R (f c) (g c)) :
    Rel R (p >>= f) (p >>= g) := by
  induction p with
  | ret c => exact rest c
  | call op next ih => exact .call ih

theorem Rel.wp {R : α → β → Prop} {h : Handler S σ} {E : Stop → Prop} {p : Prog S α} {q : Prog S β} {Q : β → σ → Prop} {s : σ}
    (same : Rel R p q) (holds : Wp h E q Q s) : Wp h E p (fun a s' => ∃ b, R a b ∧ Q b s') s := by
  induction same generalizing s with
  | ret related => exact ⟨_,related,holds⟩
  | call _ ih =>
    rw [wp_call] at holds ⊢
    rename_i op _ _ _
    cases answered : h op s with
    | ok r =>
      rw [answered] at holds
      exact ih r.1 holds
    | error e =>
      rw [answered] at holds
      exact holds

/-- The run has come from the first program and state to the second. -/
inductive Reaches (h : Handler S σ) : Prog S α → σ → Prog S α → σ → Prop where
  | refl (p : Prog S α) (s : σ) : Reaches h p s p s
  | step {op : S.Op} {next : S.Ans op → Prog S α} {s s' s'' : σ} {a : S.Ans op} {p : Prog S α}
      (first : h op s = .ok (a,s')) (rest : Reaches h (next a) s' p s'') :
      Reaches h (.call op next) s p s''

theorem reaches_exec {h : Handler S σ} {p : Prog S α} {s s' : σ} {a : α} (run : exec h p s = .ok (a,s')) :
    Reaches h p s (.ret a) s' := by
  induction p generalizing s with
  | ret b =>
    cases run
    exact .refl _ _
  | call op next ih =>
    rw [exec_call] at run
    cases first : h op s with
    | error e => rw [first] at run; cases run
    | ok r =>
      rw [first] at run
      exact .step first (ih r.1 run)

/-- The first operations of a run. -/
def steps (h : Handler S σ) : Nat → Prog S α → σ → Prog S α × σ
  | 0, p, s => (p,s)
  | _, .ret a, s => (.ret a,s)
  | n + 1, .call op next, s =>
    match h op s with
    | .ok (a,s') => steps h n (next a) s'
    | .error _ => (.call op next,s)

theorem reaches_steps (h : Handler S σ) (n : Nat) (p : Prog S α) (s : σ) : Reaches h p s (steps h n p s).1 (steps h n p s).2 := by
  induction n generalizing p s with
  | zero => exact .refl p s
  | succ n ih =>
    cases p with
    | ret a => exact .refl _ s
    | call op next =>
      rw [steps]
      cases first : h op s with
      | error e => exact .refl _ s
      | ok r => exact .step first (ih (next r.1) r.2)

open Classical in
/-- The machine that stops at an operation that is not allowed. -/
noncomputable def guarded (ok : S.Op → σ → Prop) (h : Handler S σ) : Handler S σ := fun op s =>
  if ok op s then h op s else .error (.panic "guard")

section
variable {h : Handler S σ} {ok : S.Op → σ → Prop} {E : Stop → Prop}

theorem guarded_of_ok {op : S.Op} {s : σ} (allowed : ok op s) : guarded ok h op s = h op s := if_pos allowed

end

/-- Every operation in the program is allowed, whatever the answers. -/
def Always (ok : S.Op → Prop) : Prog S α → Prop
  | .ret _ => True
  | .call op next => ok op ∧ ∀ a, Always ok (next a)

theorem always_bind {ok : S.Op → Prop} {p : Prog S α} {f : α → Prog S β} (first : Always ok p)
    (rest : ∀ a, Always ok (f a)) : Always ok (p >>= f) := by
  induction p with
  | ret a => exact rest a
  | call op next ih => exact ⟨first.1,fun a => ih a (first.2 a)⟩

theorem always_perform {ok : S.Op → Prop} {op : S.Op} {f : S.Ans op → Prog S β} (allowed : ok op)
    (rest : ∀ a, Always ok (f a)) : Always ok (perform op >>= f) := ⟨allowed,rest⟩

theorem always_mono {ok ok' : S.Op → Prop} {p : Prog S α} (always : Always ok p) (weaker : ∀ op, ok op → ok' op) :
    Always ok' p := by
  induction p with
  | ret a => trivial
  | call op next ih => exact ⟨weaker op always.1,fun a => ih a (always.2 a)⟩

/-- Some run of the program, with answers that `given` allows, performs the operation. -/
inductive Performs (given : (op : S.Op) → S.Ans op → Prop) : Prog S α → S.Op → Prop where
  | here {op : S.Op} {next : S.Ans op → Prog S α} : Performs given (.call op next) op
  | later {op op' : S.Op} {next : S.Ans op → Prog S α} (a : S.Ans op) (fits : given op a) (rest : Performs given (next a) op') :
      Performs given (.call op next) op'

section
variable {given : (op : S.Op) → S.Ans op → Prop}

theorem Performs.next {op op' : S.Op} {f : S.Ans op → Prog S α} (a : S.Ans op) (fits : given op a) (rest : Performs given (f a) op') :
    Performs given (perform op >>= f) op' := .later a fits rest

theorem performs_perform {op op' : S.Op} {f : S.Ans op → Prog S α} (performs : Performs given (perform op >>= f) op') :
    op' = op ∨ ∃ a, given op a ∧ Performs given (f a) op' := by
  cases performs with
  | here => exact .inl rfl
  | later a fits rest => exact .inr ⟨a,fits,rest⟩

theorem always_performs {ok : S.Op → Prop} {p : Prog S α} {op : S.Op} (always : Always ok p) (performs : Performs given p op) :
    ok op := by
  induction performs with
  | here => exact always.1
  | later a _ _ ih => exact ih (always.2 a)

end

/-- What each allowed operation keeps, a run that is cut off has kept. -/
theorem always_reaches {h : Handler S σ} {ok : S.Op → Prop} {R : σ → σ → Prop} (stays : ∀ s, R s s)
    (chain : ∀ s s' s'', R s s' → R s' s'' → R s s'')
    (step : ∀ op, ok op → ∀ s a s', h op s = .ok (a,s') → R s s') {p p' : Prog S α} {s s' : σ}
    (always : Always ok p) (run : Reaches h p s p' s') : R s s' := by
  induction run with
  | refl p s => exact stays s
  | step first rest ih => exact chain _ _ _ (step _ always.1 _ _ _ first) (ih (always.2 _))

/-- Every operation of the run answers, `C` holds before and after each of them,
    and `Q` of the answer and the last state. -/
def Crashes (h : Handler S σ) (C : σ → Prop) : Prog S α → (α → σ → Prop) → σ → Prop
  | .ret a, Q, s => C s ∧ Q a s
  | .call op next, Q, s => C s ∧ ∃ a s', h op s = .ok (a,s') ∧ Crashes h C (next a) Q s'

section
variable {h : Handler S σ} {C : σ → Prop}

theorem crashes_here {p : Prog S α} {Q : α → σ → Prop} {s : σ} (holds : Crashes h C p Q s) : C s := by
  cases p with
  | ret a => exact holds.1
  | call op next => exact holds.1

/-- Whatever the run has reached when it is cut off satisfies the crash condition. -/
theorem crashes_reaches {p p' : Prog S α} {Q : α → σ → Prop} {s s' : σ} (holds : Crashes h C p Q s)
    (run : Reaches h p s p' s') : C s' := by
  induction run with
  | refl p s => exact crashes_here holds
  | step first rest ih =>
    obtain ⟨_,b,t,second,after⟩ := holds
    rw [first] at second
    cases second
    exact ih after

theorem crashes_exec {p : Prog S α} {Q : α → σ → Prop} {s : σ} (holds : Crashes h C p Q s) :
    ∃ a s', exec h p s = .ok (a,s') ∧ Q a s' := by
  induction p generalizing s with
  | ret a => exact ⟨a,s,rfl,holds.2⟩
  | call op next ih =>
    obtain ⟨_,b,t,first,after⟩ := holds
    obtain ⟨a,s',run,final⟩ := ih b after
    exact ⟨a,s',by rw [exec_call,first]; exact run,final⟩

theorem crashes_bind {p : Prog S α} {f : α → Prog S β} {Q : β → σ → Prop} {s : σ}
    (holds : Crashes h C p (fun a s' => Crashes h C (f a) Q s') s) : Crashes h C (p >>= f) Q s := by
  induction p generalizing s with
  | ret a => exact holds.2
  | call op next ih =>
    obtain ⟨here,b,t,first,after⟩ := holds
    exact ⟨here,b,t,first,ih b after⟩

theorem crashes_mono {D : σ → Prop} {p : Prog S α} {Q R : α → σ → Prop} {s : σ}
    (holds : Crashes h C p Q s) (weakerC : ∀ s, C s → D s) (weaker : ∀ a s', Q a s' → R a s') :
    Crashes h D p R s := by
  induction p generalizing s with
  | ret a => exact ⟨weakerC s holds.1,weaker a s holds.2⟩
  | call op next ih =>
    obtain ⟨here,b,t,first,after⟩ := holds
    exact ⟨weakerC s here,b,t,first,ih b after⟩

end

end Prog

end Osce.Lib
