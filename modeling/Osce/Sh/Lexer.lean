import Osce.Sh.Code

/-!
The tokens of a line, and what `gettoken` and `peek` do in terms of them. A pointer into the line stands for the tokens that are
still to come: `gettoken` takes the first of them and `peek` looks at it.
-/
namespace Osce.Sh
open List

inductive Tok where
  | word (bytes : List UInt8)
  | lt
  | gt
  | gtgt
  | bar
  | amp
  | semi
  | lpar
  | rpar
  deriving DecidableEq

def opOf (c : UInt8) : Option Tok :=
  if c = 60 then some .lt
  else if c = 124 then some .bar
  else if c = 38 then some .amp
  else if c = 59 then some .semi
  else if c = 40 then some .lpar
  else if c = 41 then some .rpar
  else none

/-- A line as tokens: words are as long as they can be, and so is `>>`. -/
def tokens : List UInt8 → List Tok
  | [] => []
  | c :: rest =>
    if isBlank c then tokens rest
    else if c = 62 then
      if rest.head? = some 62 then .gtgt :: tokens rest.tail else .gt :: tokens rest
    else
      match opOf c with
      | some op => op :: tokens rest
      | none => .word (c :: rest.takeWhile inWord) :: tokens (rest.dropWhile inWord)
termination_by bytes => bytes.length
decreasing_by
  · exact Nat.lt_succ_self _
  · simp only [List.length_tail,List.length_cons]
    omega
  · exact Nat.lt_succ_self _
  · exact Nat.lt_succ_self _
  · exact Nat.lt_succ_of_le (List.dropWhile_sublist _).length_le

def Tok.ret : Tok → UInt8
  | .word _ => 97
  | .lt => 60
  | .gt => 62
  | .gtgt => 43
  | .bar => 124
  | .amp => 38
  | .semi => 59
  | .lpar => 40
  | .rpar => 41

def Tok.first : Tok → Option UInt8
  | .word _ => none
  | .lt => some 60
  | .gt => some 62
  | .gtgt => some 62
  | .bar => some 124
  | .amp => some 38
  | .semi => some 59
  | .lpar => some 40
  | .rpar => some 41

variable {s : List UInt8} {p : Nat} {test : UInt8 → Bool}

theorem skip_from_eq (bytes : List UInt8) (p : Nat) : skip_from test bytes p = p + (bytes.takeWhile test).length := by
  induction bytes generalizing p with
  | nil => rfl
  | cons c rest ih =>
    by_cases pass : test c
    · simp [skip_from,pass,ih]
      omega
    · simp [skip_from,pass]

theorem skip_eq (s : List UInt8) (test : UInt8 → Bool) (p : Nat) : skip s test p = p + ((s.drop p).takeWhile test).length := skip_from_eq ..

theorem drop_skip (s : List UInt8) (test : UInt8 → Bool) (p : Nat) : s.drop (skip s test p) = (s.drop p).dropWhile test := by
  rw [skip_eq,← drop_drop]
  conv_lhs =>
    arg 2
    rw [← takeWhile_append_dropWhile (p := test) (l := s.drop p)]
  rw [drop_left]

theorem skip_le (inside : p ≤ s.length) : skip s test p ≤ s.length := by
  have length := (takeWhile_sublist test (l := s.drop p)).length_le
  rw [length_drop] at length
  rw [skip_eq]
  omega

theorem skip_stops {c : UInt8} {rest : List UInt8} (here : s.drop (skip s test p) = c :: rest) : test c = false := by
  rw [drop_skip] at here
  have stops := head?_dropWhile_not test (s.drop p)
  rw [here] at stops
  simpa using stops

theorem skip_all {bytes : List UInt8} (blanks : ∀ c ∈ bytes, isBlank c = true) (rest : List UInt8) : tokens (bytes ++ rest) = tokens rest := by
  induction bytes with
  | nil => rfl
  | cons c cs ih =>
    rw [cons_append,tokens,if_pos (blanks c (mem_cons_self ..))]
    exact ih fun d member => blanks d (mem_cons_of_mem _ member)

theorem tokens_skip (s : List UInt8) (p : Nat) : tokens (s.drop (skip s isBlank p)) = tokens (s.drop p) := by
  rw [drop_skip]
  conv_rhs => rw [← takeWhile_append_dropWhile (p := isBlank) (l := s.drop p)]
  exact (skip_all (fun c member => mem_takeWhile_imp member) _).symm

/-- The pointer is in the line, and these tokens are still to come. -/
def At (s : List UInt8) (p : Nat) (ts : List Tok) : Prop := p ≤ s.length ∧ tokens (s.drop p) = ts

def Span (s : List UInt8) (q eq : Nat) (w : List UInt8) : Prop :=
  q + w.length = eq ∧ eq ≤ s.length ∧ (s.drop q).take w.length = w ∧ (∀ c ∈ w, inWord c = true) ∧
    ∀ c rest, s.drop eq = c :: rest → inWord c = false

theorem At.skip {ts : List Tok} (here : At s p ts) : At s (skip s isBlank p) ts :=
  ⟨skip_le here.1,(tokens_skip s p).trans here.2⟩

theorem load_inside (inside : p ≤ s.length) : load s p = .ok (s.getD p 0) := if_pos inside

theorem load_cons {c : UInt8} {rest : List UInt8} (here : s.drop p = c :: rest) : load s p = .ok c := by
  have inside : p < s.length := by
    by_contra past
    rw [drop_eq_nil_of_le (by omega)] at here
    cases here
  have head := congrArg (fun l => l.getD 0 0) here
  simp at head
  rw [load_inside inside.le]
  simp [head]

theorem load_nil (inside : p ≤ s.length) (here : s.drop p = []) : load s p = .ok 0 := by
  have past := drop_eq_nil_iff.mp here
  rw [load_inside inside]
  simp [past]

theorem drop_succ {c : UInt8} {rest : List UInt8} (here : s.drop p = c :: rest) : s.drop (p + 1) = rest := by
  rw [← drop_drop,here]
  rfl

theorem lt_of_drop {c : UInt8} {rest : List UInt8} (here : s.drop p = c :: rest) : p < s.length := by
  by_contra past
  rw [drop_eq_nil_of_le (by omega)] at here
  cases here

theorem tokens_ne_nil {c : UInt8} {rest : List UInt8} (mark : isBlank c = false) : tokens (c :: rest) ≠ [] := by
  rw [tokens]
  simp only [mark,Bool.false_eq_true,if_false]
  split
  · split <;> simp
  · split <;> simp

theorem At.skip_end (here : At s p []) : Sh.skip s isBlank p = s.length := by
  have next := here.skip
  cases left : s.drop (Sh.skip s isBlank p) with
  | nil => exact le_antisymm next.1 (drop_eq_nil_iff.mp left)
  | cons c rest =>
    have some : tokens (c :: rest) ≠ [] := tokens_ne_nil (skip_stops left)
    rw [← left,next.2] at some
    exact absurd rfl some

theorem gettoken_nil (here : At s p []) : gettoken s p = .ok ⟨0,s.length,s.length,s.length⟩ := by
  have last : s.drop s.length = [] := drop_eq_nil_of_le le_rfl
  have stays : Sh.skip s isBlank s.length = s.length := by
    rw [skip_eq,last]
    rfl
  have nul := load_nil le_rfl last
  simp only [gettoken,tokenAt,here.skip_end,nul]
  simp [stays,bind,Except.bind,pure,Except.pure]

theorem opOf_eq {c : UInt8} {t : Tok} (op : opOf c = some t) :
    t.ret = c ∧ t.first = some c ∧ (c = 124 ∨ c = 40 ∨ c = 41 ∨ c = 59 ∨ c = 38 ∨ c = 60) := by
  rw [opOf] at op
  split_ifs at op
  all_goals
    cases op
    subst c
    decide

theorem opOf_none {c : UInt8} (op : opOf c = none) (notGreater : c ≠ 62) :
    ¬(c = 124 ∨ c = 40 ∨ c = 41 ∨ c = 59 ∨ c = 38 ∨ c = 60) ∧ c ∉ symbols := by
  rw [opOf] at op
  split_ifs at op
  simp_all [symbols]

theorem tokenAt_cons {q : Nat} {c : UInt8} {rest : List UInt8} {t : Tok} {ts : List Tok} (bytes : s.drop q = c :: rest) (notNul : c ≠ 0)
    (mark : isBlank c = false) (first : tokens (c :: rest) = t :: ts) :
    ∃ eq, tokenAt s q = .ok (t.ret,eq) ∧ At s eq ts ∧ ∀ w, t = .word w → Span s q eq w := by
  have inside := lt_of_drop bytes
  have next := drop_succ bytes
  have loaded := load_cons bytes
  rw [tokens] at first
  simp only [mark,Bool.false_eq_true,if_false] at first
  by_cases greater : c = 62
  · subst greater
    simp only [if_true] at first
    cases rest with
    | nil =>
      simp only [head?_nil,reduceCtorEq,if_false,cons.injEq] at first
      obtain ⟨rfl,rfl⟩ := first
      have loaded' := load_nil inside next
      refine ⟨q + 1,?_,⟨inside,by rw [next]⟩,nofun⟩
      simp [tokenAt,loaded,loaded',bind,Except.bind,pure,Except.pure,Tok.ret]
    | cons d rest' =>
      have loaded' := load_cons next
      by_cases again : d = 62
      · subst again
        simp only [head?_cons,if_true,tail_cons,cons.injEq] at first
        obtain ⟨rfl,rfl⟩ := first
        have inside' := lt_of_drop next
        refine ⟨q + 2,?_,⟨inside',by rw [← drop_succ next]⟩,nofun⟩
        simp [tokenAt,loaded,loaded',bind,Except.bind,pure,Except.pure,Tok.ret]
      · simp only [head?_cons,Option.some.injEq,again,if_false,cons.injEq] at first
        obtain ⟨rfl,rfl⟩ := first
        refine ⟨q + 1,?_,⟨inside,by rw [next]⟩,nofun⟩
        simp [tokenAt,loaded,loaded',again,bind,Except.bind,pure,Except.pure,Tok.ret]
  simp only [greater,if_false] at first
  cases op : opOf c with
  | some u =>
    rw [op] at first
    simp only [cons.injEq] at first
    obtain ⟨rfl,rfl⟩ := first
    obtain ⟨ret,byte,isOp⟩ := opOf_eq op
    refine ⟨q + 1,?_,⟨inside,by rw [next]⟩,?_⟩
    · simp [tokenAt,loaded,notNul,isOp,ret,bind,Except.bind,pure,Except.pure]
    · rintro w rfl
      cases byte
  | none =>
    rw [op] at first
    simp only [cons.injEq] at first
    obtain ⟨rfl,rfl⟩ := first
    obtain ⟨notOp,notSymbol⟩ := opOf_none op greater
    have isWord : inWord c = true := by
      simpa [inWord,isBlank,strchr,notSymbol] using mark
    have whole : (c :: rest).takeWhile inWord = c :: rest.takeWhile inWord := takeWhile_cons_of_pos isWord
    have length : Sh.skip s inWord q = q + (c :: rest.takeWhile inWord).length := by rw [skip_eq,bytes,whole]
    have after : s.drop (Sh.skip s inWord q) = rest.dropWhile inWord := by
      rw [drop_skip,bytes]
      exact dropWhile_cons_of_pos isWord
    refine ⟨Sh.skip s inWord q,?_,⟨skip_le inside.le,by rw [after]⟩,?_⟩
    · simp [tokenAt,loaded,notNul,notOp,greater,bind,Except.bind,pure,Except.pure,Tok.ret]
    · rintro w same
      cases same
      refine ⟨length.symm,skip_le inside.le,?_,fun d member => ?_,fun d rest' stop => skip_stops stop⟩
      · rw [bytes,← whole]
        exact prefix_iff_eq_take.mp ( takeWhile_prefix _) |>.symm
      · rw [← whole] at member
        exact mem_takeWhile_imp member

theorem gettoken_cons (nulFree : ∀ c ∈ s, c ≠ 0) {t : Tok} {ts : List Tok} (here : At s p (t :: ts)) :
    ∃ tok, gettoken s p = .ok tok ∧ tok.ret = t.ret ∧ At s tok.ps ts ∧ ∀ w, t = .word w → Span s tok.q tok.eq w := by
  have next := here.skip
  cases bytes : s.drop (Sh.skip s isBlank p) with
  | nil =>
    have none := next.2
    rw [bytes,tokens] at none
    cases none
  | cons c rest =>
    have notNul : c ≠ 0 := nulFree c (mem_of_mem_drop (bytes ▸ mem_cons_self ..))
    obtain ⟨eq,found,after,span⟩ := tokenAt_cons bytes notNul (skip_stops bytes) (bytes ▸ next.2)
    refine ⟨⟨t.ret,Sh.skip s isBlank p,eq,Sh.skip s isBlank eq⟩,?_,rfl,after.skip,span⟩
    simp only [gettoken,found]
    rfl

/-- Whether the first token is an operator with one of these bytes. -/
def sees (toks : List UInt8) : List Tok → Bool
  | [] => false
  | t :: _ => match t.first with
    | some c => strchr toks c
    | none => false

theorem peek_at (nulFree : ∀ c ∈ s, c ≠ 0) {ts : List Tok} (here : At s p ts) {toks : List UInt8} (ops : ∀ c ∈ toks, c ∈ symbols) :
    peek s p toks = .ok (sees toks ts,Sh.skip s isBlank p) := by
  have next := here.skip
  cases bytes : s.drop (Sh.skip s isBlank p) with
  | nil =>
    have none := next.2
    rw [bytes,tokens] at none
    subst none
    have loaded := load_nil next.1 bytes
    simp only [peek,loaded]
    rfl
  | cons c rest =>
    have notNul : c ≠ 0 := nulFree c (mem_of_mem_drop (bytes ▸ mem_cons_self ..))
    have mark := skip_stops bytes
    have loaded := load_cons bytes
    have first := next.2
    rw [bytes,tokens] at first
    simp only [mark,Bool.false_eq_true,if_false] at first
    have same : strchr toks c = sees toks ts := by
      subst first
      by_cases greater : c = 62
      · subst greater
        simp only [if_true]
        split <;> rfl
      simp only [greater,if_false]
      cases op : opOf c with
      | some u => simp [sees,(opOf_eq op).2.1]
      | none =>
        have absent : c ∉ toks := fun member => (opOf_none op greater).2 (ops c member)
        simp [sees,Tok.first,strchr,absent]
    simp [peek,loaded,same,notNul,bind,Except.bind,pure,Except.pure]

end Osce.Sh
