import Osce.Sh.Lexer

/-!
The grammar of command lines and its trees. The parser finds the derivation of a line if there is one and panics otherwise:
each parsing function, started at the tokens of something that it can parse and of something that cannot belong to it,
stops between the two; and whatever it returns without a panic has a derivation.
-/
namespace Osce.Sh
open List

/-- The file of a redirection, and how it is opened for which descriptor. -/
structure File where
  name : List UInt8
  mode : Nat
  fd : Nat

inductive Tree where
  | exec (argv : List (List UInt8))
  | redir (cmd : Tree) (file : File)
  | pipe (left right : Tree)
  | list (left right : Tree)
  | back (cmd : Tree)

def Tree.redirs (t : Tree) (fs : List File) : Tree := fs.foldl Tree.redir t

def Tree.backs (t : Tree) : Nat → Tree
  | 0 => t
  | n + 1 => (t.backs n).back

def Tok.redirects (w : List UInt8) : Tok → Option File
  | .lt => some ⟨w,O_RDONLY,0⟩
  | .gt => some ⟨w,O_WRONLY + O_CREATE,1⟩
  | .gtgt => some ⟨w,O_WRONLY + O_CREATE,1⟩
  | _ => none

/-- redir* -/
inductive Redirs : List Tok → List File → Prop where
  | nil : Redirs [] []
  | cons {t : Tok} {w : List UInt8} {f : File} {ts : List Tok} {fs : List File} (op : t.redirects w = some f) (rest : Redirs ts fs) :
      Redirs (t :: .word w :: ts) (f :: fs)

/-- (word redir*)* -/
inductive Words : List Tok → List (List UInt8) → List File → Prop where
  | nil : Words [] [] []
  | cons {w : List UInt8} {us ts : List Tok} {fs gs : List File} {argv : List (List UInt8)} (redirs : Redirs us fs) (rest : Words ts argv gs) :
      Words (.word w :: (us ++ ts)) (w :: argv) (fs ++ gs)

inductive Nonterminal where
  | line
  | pipe
  | exec

inductive Derives : Nonterminal → List Tok → Tree → Prop where
  /-- line ::= pipe '&'* -/
  | line {ts : List Tok} {t : Tree} (n : Nat) (pipe : Derives .pipe ts t) : Derives .line (ts ++ List.replicate n .amp) (t.backs n)
  /-- line ::= pipe '&'* ';' line -/
  | list {ts us : List Tok} {t u : Tree} (n : Nat) (pipe : Derives .pipe ts t) (line : Derives .line us u) :
      Derives .line (ts ++ (List.replicate n .amp ++ .semi :: us)) (.list (t.backs n) u)
  /-- pipe ::= exec -/
  | exec {ts : List Tok} {t : Tree} (exec : Derives .exec ts t) : Derives .pipe ts t
  /-- pipe ::= exec '|' pipe -/
  | pipe {ts us : List Tok} {t u : Tree} (exec : Derives .exec ts t) (pipe : Derives .pipe us u) : Derives .pipe (ts ++ .bar :: us) (.pipe t u)
  /-- exec ::= '(' line ')' redir* -/
  | block {ts us : List Tok} {t : Tree} {fs : List File} (line : Derives .line ts t) (redirs : Redirs us fs) :
      Derives .exec (.lpar :: (ts ++ .rpar :: us)) (t.redirs fs)
  /-- exec ::= redir* (word redir*)* -/
  | words {us ts : List Tok} {fs gs : List File} {argv : List (List UInt8)} (redirs : Redirs us fs) (words : Words ts argv gs)
      (few : argv.length ≤ MAXARGS - 1) : Derives .exec (us ++ ts) ((Tree.exec argv).redirs (fs ++ gs))

variable {s : List UInt8} {p turns : Nat}

def WordAt (s : List UInt8) (span : Nat × Nat) (w : List UInt8) : Prop := Span s span.1 span.2 w

def RedirAt (s : List UInt8) (r : Redir) (f : File) : Prop := Span s r.file r.efile f.name ∧ r.mode = f.mode ∧ r.fd = f.fd

/-- A command that the parser has built, with the words of a tree. -/
inductive Reads (s : List UInt8) : Cmd → Tree → Prop where
  | exec {spans : List (Nat × Nat)} {argv : List (List UInt8)} (words : List.Forall₂ (WordAt s) spans argv) (few : argv.length ≤ MAXARGS - 1) :
      Reads s (.exec spans) (.exec argv)
  | redir {c : Cmd} {t : Tree} {r : Redir} {f : File} (cmd : Reads s c t) (file : RedirAt s r f) : Reads s (.redir c r) (.redir t f)
  | pipe {a b : Cmd} {t u : Tree} (left : Reads s a t) (right : Reads s b u) : Reads s (.pipe a b) (.pipe t u)
  | list {a b : Cmd} {t u : Tree} (left : Reads s a t) (right : Reads s b u) : Reads s (.list a b) (.list t u)
  | back {c : Cmd} {t : Tree} (cmd : Reads s c t) : Reads s (.back c) (.back t)

theorem reads_redirs {c : Cmd} {t : Tree} {rs : List Redir} {fs : List File} (reads : Reads s c t) (files : List.Forall₂ (RedirAt s) rs fs) :
    Reads s (redircmds c rs) (t.redirs fs) := by
  induction files generalizing c t with
  | nil => exact reads
  | cons first _ ih => exact ih (.redir reads first)

/-- A parsing function returns something that has the property, or panics where it may. -/
def Outcome {α : Type} (may : Prop) (r : Except Err α) (Q : α → Prop) : Prop :=
  (∃ a, r = .ok a ∧ Q a) ∨ may ∧ ∃ message, r = .error (.panic message)

theorem outcome_ok {α : Type} {may : Prop} {a : α} {Q : α → Prop} (holds : Q a) : Outcome may (.ok a) Q := .inl ⟨a,rfl,holds⟩

theorem outcome_panic {α : Type} {Q : α → Prop} (message : String) : Outcome True (.error (.panic message) : Except Err α) Q :=
  .inr ⟨trivial,message,rfl⟩

theorem outcome_bind {α β : Type} {may : Prop} {r : Except Err α} {f : α → Except Err β} {Q : α → Prop} {R : β → Prop}
    (first : Outcome may r Q) (rest : ∀ a, Q a → Outcome may (f a) R) : Outcome may (r >>= f) R := by
  obtain ⟨a,rfl,holds⟩ | ⟨allowed,message,rfl⟩ := first
  · exact rest a holds
  · exact .inr ⟨allowed,message,rfl⟩

theorem outcome_mono {α : Type} {may : Prop} {r : Except Err α} {Q R : α → Prop} (first : Outcome may r Q) (weaker : ∀ a, Q a → R a) :
    Outcome may r R := by
  obtain ⟨a,ok,holds⟩ | failed := first
  · exact .inl ⟨a,ok,weaker a holds⟩
  · exact .inr failed

section
variable (nulFree : ∀ c ∈ s, c ≠ 0)
include nulFree

theorem outcome_peek {β : Type} {may : Prop} {f : Bool × Nat → Except Err β} {R : β → Prop} {ts : List Tok} (here : At s p ts)
    {toks : List UInt8} (ops : toks.all symbols.contains = true) (rest : ∀ p', At s p' ts → Outcome may (f (sees toks ts,p')) R) :
    Outcome may (peek s p toks >>= f) R := by
  rw [peek_at nulFree here (by simpa using ops)]
  exact rest _ here.skip

theorem outcome_token {β : Type} {may : Prop} {f : Token → Except Err β} {R : β → Prop} {t : Tok} {ts : List Tok} (here : At s p (t :: ts))
    (rest : ∀ tok, tok.ret = t.ret → At s tok.ps ts → (∀ w, t = .word w → Span s tok.q tok.eq w) → Outcome may (f tok) R) :
    Outcome may (gettoken s p >>= f) R := by
  obtain ⟨tok,found,ret,after,span⟩ := gettoken_cons nulFree here
  rw [found]
  exact rest tok ret after span

theorem parseredirs_outcome {ts : List Tok} (here : At s p ts) (enough : ts.length < turns) :
    Outcome True (parseredirs s turns p) fun r =>
      ∃ us vs fs, ts = us ++ vs ∧ At s r.2 vs ∧ Redirs us fs ∧ List.Forall₂ (RedirAt s) r.1 fs := by
  induction turns generalizing p ts with
  | zero => omega
  | succ turns ih =>
    rw [parseredirs]
    refine outcome_peek nulFree here rfl fun p' here' => ?_
    cases seen : sees [60,62] ts with
    | false => exact outcome_ok ⟨[],ts,[],rfl,here',.nil,.nil⟩
    | true =>
      cases ts with
      | nil => cases seen
      | cons t ts =>
        simp only [if_true]
        refine outcome_token nulFree here' fun tok ret after _ => ?_
        cases ts with
        | nil =>
          rw [gettoken_nil after]
          exact outcome_panic _
        | cons u ts =>
          refine outcome_token nulFree after fun file ret' after' span => ?_
          cases u with
          | word w =>
            have isWord : ¬file.ret ≠ 97 := by simp [ret',Tok.ret]
            rw [if_neg isWord]
            refine outcome_bind (ih after' (by simp at enough; omega)) fun r parsed => ?_
            obtain ⟨us,vs,fs,rfl,rest,redirs,files⟩ := parsed
            obtain ⟨f,op,r,isR,stored⟩ : ∃ f, t.redirects w = some f ∧ ∃ r, redirOf tok.ret file.q file.eq = [r] ∧ RedirAt s r f := by
              rw [ret]
              cases t with
              | lt => exact ⟨_,rfl,_,rfl,span w rfl,rfl,rfl⟩
              | gt => exact ⟨_,rfl,_,rfl,span w rfl,rfl,rfl⟩
              | gtgt => exact ⟨_,rfl,_,rfl,span w rfl,rfl,rfl⟩
              | _ => cases seen
            refine outcome_ok ⟨t :: .word w :: us,vs,f :: fs,rfl,rest,.cons op redirs,?_⟩
            rw [isR]
            exact .cons stored files
          | _ =>
            rw [if_pos (by rw [ret']; decide)]
            exact outcome_panic _

omit nulFree in
theorem parseargs_end {ts : List Tok} {spans : List (Nat × Nat)} {argv : List (List UInt8)} {rs : List Redir} {fs : List File}
    (here : At s p ts) (found : List.Forall₂ (WordAt s) spans argv)
    (files : List.Forall₂ (RedirAt s) rs fs) (few : argv.length ≤ MAXARGS - 1) :
    ∃ us vs more gs, ts = us ++ vs ∧ At s p vs ∧ Words us more gs ∧ (argv ++ more).length ≤ MAXARGS - 1 ∧
      Reads s (redircmds (.exec spans) rs) ((Tree.exec (argv ++ more)).redirs (fs ++ gs)) := by
  have reads : Reads s (redircmds (.exec spans) rs) ((Tree.exec argv).redirs fs) := reads_redirs (.exec found few) files
  exact ⟨[],ts,[],[],rfl,here,.nil,by simpa using few,by simpa using reads⟩

theorem parseargs_outcome {ts : List Tok} {spans : List (Nat × Nat)} {argv : List (List UInt8)} {rs : List Redir} {fs : List File}
    (here : At s p ts) (enough : ts.length < turns) (found : List.Forall₂ (WordAt s) spans argv)
    (files : List.Forall₂ (RedirAt s) rs fs) (few : argv.length ≤ MAXARGS - 1) :
    Outcome True (parseargs s turns spans rs p) fun r => ∃ us vs more gs, ts = us ++ vs ∧ At s r.2 vs ∧ Words us more gs ∧
      (argv ++ more).length ≤ MAXARGS - 1 ∧ Reads s r.1 ((Tree.exec (argv ++ more)).redirs (fs ++ gs)) := by
  induction turns generalizing p ts spans argv rs fs with
  | zero => omega
  | succ turns ih =>
    rw [parseargs]
    refine outcome_peek nulFree here rfl fun p' here' => ?_
    cases seen : sees [124,41,38,59] ts with
    | true => exact outcome_ok (parseargs_end here' found files few)
    | false =>
      simp only [Bool.false_eq_true,if_false]
      cases ts with
      | nil =>
        rw [gettoken_nil here']
        exact outcome_ok (parseargs_end ⟨le_refl _,by simp [tokens]⟩ found files few)
      | cons t ts =>
        refine outcome_token nulFree here' fun tok ret after span => ?_
        cases t with
        | word w =>
          have isWord : tok.ret = 97 := ret
          rw [if_neg (by simp [isWord]),if_neg (by simp [isWord])]
          by_cases full : spans.length + 1 ≥ MAXARGS
          · rw [if_pos full]
            exact outcome_panic _
          · rw [if_neg full]
            refine outcome_bind (parseredirs_outcome nulFree after (by simp at enough; omega)) fun r parsed => ?_
            obtain ⟨us,vs,gs,rfl,rest,redirs,files'⟩ := parsed
            have word : WordAt s (tok.q,tok.eq) w := span w rfl
            have found' := rel_append found (.cons word .nil)
            have few' : (argv ++ [w]).length ≤ MAXARGS - 1 := by
              simp only [length_append,← found.length_eq,length_singleton]
              omega
            refine outcome_mono (ih rest (by simp at enough; omega) found' (rel_append files files') few') fun r parsed => ?_
            obtain ⟨us',vs',more,gs',rfl,rest',words,few'',reads⟩ := parsed
            exact ⟨.word w :: (us ++ us'),vs',w :: more,gs ++ gs',by simp,rest',.cons redirs words,by simpa using few'',by simpa using reads⟩
        | _ =>
          rw [if_neg (by rw [ret]; decide),if_pos (by rw [ret]; decide)]
          exact outcome_panic _

omit nulFree in
theorem sees_tok {t : Tok} {ts : List Tok} (op : t ∈ [Tok.bar,.amp,.semi,.lpar,.rpar]) (seen : sees [t.ret] ts = true) : ∃ us, ts = t :: us := by
  cases ts with
  | nil => cases seen
  | cons u us =>
    refine ⟨us,?_⟩
    simp only [mem_cons,not_mem_nil,or_false] at op
    rcases op with rfl | rfl | rfl | rfl | rfl <;> cases u <;> first | rfl | cases seen

omit nulFree in
theorem backs_back (t : Tree) (n : Nat) : t.back.backs n = t.backs (n + 1) := by
  induction n with
  | zero => rfl
  | succ n ih => exact congrArg Tree.back ih

theorem parsebacks_outcome {ts : List Tok} {c : Cmd} {t : Tree} (here : At s p ts) (enough : ts.length < turns) (reads : Reads s c t) :
    Outcome True (parsebacks s turns c p) fun r =>
      ∃ n vs, ts = replicate n .amp ++ vs ∧ At s r.2 vs ∧ Reads s r.1 (t.backs n) := by
  induction turns generalizing p ts c t with
  | zero => omega
  | succ turns ih =>
    rw [parsebacks]
    refine outcome_peek nulFree here rfl fun p' here' => ?_
    cases seen : sees [38] ts with
    | false => exact outcome_ok ⟨0,ts,rfl,here',reads⟩
    | true =>
      obtain ⟨ts,rfl⟩ := sees_tok (t := .amp) (by decide) seen
      simp only [if_true]
      refine outcome_token nulFree here' fun tok _ after _ => ?_
      refine outcome_mono (ih after (by simp at enough; omega) reads.back) fun r parsed => ?_
      obtain ⟨n,vs,rfl,rest,reads⟩ := parsed
      exact ⟨n + 1,vs,rfl,rest,by rwa [← backs_back]⟩

/-- Given fewer than `most` tokens, a function returns a command of this kind for the first of them, or panics. -/
def Sound (s : List UInt8) (n : Nonterminal) (parse : Nat → Except Err (Cmd × Nat)) (most : Nat) : Prop :=
  ∀ p ts, At s p ts → ts.length < most → Outcome True (parse p) fun r => ∃ us vs t, ts = us ++ vs ∧ At s r.2 vs ∧ Derives n us t ∧ Reads s r.1 t

theorem sound_block {most : Nat} (line : Sound s .line (parseline s turns) most) (enough : most ≤ turns) :
    Sound s .exec (parseblock s (turns + 1)) (most + 1) := by
  intro p ts here short
  rw [parseblock]
  refine outcome_peek nulFree here rfl fun p' here' => ?_
  cases seen : sees [40] ts with
  | false => exact outcome_panic _
  | true =>
    obtain ⟨ts,rfl⟩ := sees_tok (t := .lpar) (by decide) seen
    simp only [if_true]
    refine outcome_token nulFree here' fun tok _ after _ => ?_
    refine outcome_bind (line _ _ after (by simp at short; omega)) fun r parsed => ?_
    obtain ⟨us,vs,t,rfl,rest,derived,reads⟩ := parsed
    refine outcome_peek nulFree rest rfl fun p' rest' => ?_
    cases closed : sees [41] vs with
    | false => exact outcome_panic _
    | true =>
      obtain ⟨vs,rfl⟩ := sees_tok (t := .rpar) (by decide) closed
      simp only [if_true]
      refine outcome_token nulFree rest' fun tok _ after _ => ?_
      refine outcome_bind (parseredirs_outcome nulFree after (by simp at short; omega)) fun r' parsed => ?_
      obtain ⟨us',vs',fs,rfl,rest,redirs,files⟩ := parsed
      exact outcome_ok ⟨.lpar :: (us ++ .rpar :: us'),vs',t.redirs fs,by simp,rest,.block derived redirs,reads_redirs reads files⟩

theorem sound_exec {most : Nat} (block : Sound s .exec (parseblock s turns) most) (enough : most ≤ turns) :
    Sound s .exec (parseexec s (turns + 1)) most := by
  intro p ts here short
  rw [parseexec]
  refine outcome_peek nulFree here rfl fun p' here' => ?_
  cases seen : sees [40] ts with
  | true => exact block _ _ here' short
  | false =>
    simp only [Bool.false_eq_true,if_false]
    refine outcome_bind (parseredirs_outcome nulFree here' (by omega)) fun r parsed => ?_
    obtain ⟨us,vs,fs,rfl,rest,redirs,files⟩ := parsed
    refine outcome_mono (parseargs_outcome nulFree rest (by simp at short; omega) .nil files (by simp)) fun r' parsed => ?_
    obtain ⟨us',vs',argv,gs,rfl,rest',words,few,reads⟩ := parsed
    exact ⟨us ++ us',vs',_,by simp,rest',.words redirs words few,reads⟩

theorem sound_pipe {most : Nat} (exec : Sound s .exec (parseexec s turns) (most + 1)) (pipe : Sound s .pipe (parsepipe s turns) most) :
    Sound s .pipe (parsepipe s (turns + 1)) (most + 1) := by
  intro p ts here short
  rw [parsepipe]
  refine outcome_bind (exec _ _ here short) fun r parsed => ?_
  obtain ⟨us,vs,t,rfl,rest,derived,reads⟩ := parsed
  refine outcome_peek nulFree rest rfl fun p' rest' => ?_
  cases seen : sees [124] vs with
  | false => exact outcome_ok ⟨us,vs,t,rfl,rest',.exec derived,reads⟩
  | true =>
    obtain ⟨vs,rfl⟩ := sees_tok (t := .bar) (by decide) seen
    simp only [if_true]
    refine outcome_token nulFree rest' fun tok _ after _ => ?_
    refine outcome_bind (pipe _ _ after (by simp at short; omega)) fun r' parsed => ?_
    obtain ⟨us',vs',u,rfl,rest,derived',reads'⟩ := parsed
    exact outcome_ok ⟨us ++ .bar :: us',vs',.pipe t u,by simp,rest,.pipe derived derived',.pipe reads reads'⟩

theorem sound_line {most : Nat} (pipe : Sound s .pipe (parsepipe s turns) (most + 1)) (line : Sound s .line (parseline s turns) most)
    (enough : most < turns) : Sound s .line (parseline s (turns + 1)) (most + 1) := by
  intro p ts here short
  rw [parseline]
  refine outcome_bind (pipe _ _ here short) fun r parsed => ?_
  obtain ⟨us,vs,t,rfl,rest,derived,reads⟩ := parsed
  refine outcome_bind (parsebacks_outcome nulFree rest (by simp at short; omega) reads) fun r' parsed => ?_
  obtain ⟨n,vs,rfl,rest,reads⟩ := parsed
  refine outcome_peek nulFree rest rfl fun p' rest' => ?_
  cases seen : sees [59] vs with
  | false => exact outcome_ok ⟨us ++ replicate n .amp,vs,_,by simp,rest',.line n derived,reads⟩
  | true =>
    obtain ⟨vs,rfl⟩ := sees_tok (t := .semi) (by decide) seen
    simp only [if_true]
    refine outcome_token nulFree rest' fun tok _ after _ => ?_
    refine outcome_bind (line _ _ after (by simp at short; omega)) fun r'' parsed => ?_
    obtain ⟨us',vs',u,rfl,rest,derived',reads'⟩ := parsed
    exact outcome_ok ⟨us ++ (replicate n .amp ++ .semi :: us'),vs',.list (t.backs n) u,by simp,rest,.list n derived derived',.list reads reads'⟩

theorem sound {most : Nat} (enough : 4 * most ≤ turns) : Sound s .line (parseline s turns) most ∧ Sound s .pipe (parsepipe s turns) most := by
  induction most generalizing turns with
  | zero => exact ⟨fun _ _ _ short => by omega,fun _ _ _ short => by omega⟩
  | succ most ih =>
    obtain ⟨rest,rfl⟩ : ∃ rest, turns = rest + 4 := ⟨turns - 4,by omega⟩
    -- one call of each function before the next token is taken
    have exec (less : Nat) (bound : 4 * most + 2 ≤ less) : Sound s .exec (parseexec s less) (most + 1) := by
      obtain ⟨less,rfl⟩ : ∃ k, less = k + 2 := ⟨less - 2,by omega⟩
      exact sound_exec nulFree (sound_block nulFree (ih (by omega)).1 (by omega)) (by omega)
    have pipe (less : Nat) (bound : 4 * most + 3 ≤ less) : Sound s .pipe (parsepipe s less) (most + 1) := by
      obtain ⟨less,rfl⟩ : ∃ k, less = k + 1 := ⟨less - 1,by omega⟩
      exact sound_pipe nulFree (exec less (by omega)) (ih (by omega)).2
    exact ⟨sound_line nulFree (pipe _ (by omega)) (ih (by omega)).1 (by omega),pipe _ (by omega)⟩

def Nonterminal.follow : Nonterminal → List UInt8
  | .line => [41]
  | .pipe => [41,38,59]
  | .exec => [124,41,38,59]

def Follow (toks : List UInt8) (vs : List Tok) : Prop := vs = [] ∨ sees toks vs = true

omit nulFree in
theorem sees_others {toks others : List UInt8} {vs : List Tok} (follows : Follow toks vs) (apart : others.all (!toks.contains ·) = true) :
    sees others vs = false := by
  cases vs with
  | nil => rfl
  | cons v vs =>
    have seen : sees toks (v :: vs) = true := follows.resolve_left (by simp)
    cases first : v.first with
    | none => simp [sees,first]
    | some c =>
      simp only [sees,first,strchr,contains_iff_mem] at seen
      simp only [sees,first,strchr,contains_eq_mem,decide_eq_false_iff_not]
      exact fun mem => by simpa [seen] using all_eq_true.mp apart c mem

omit nulFree in
theorem sees_more {toks more : List UInt8} {vs : List Tok} (follows : Follow toks vs) (larger : toks.all more.contains = true) : Follow more vs := by
  refine follows.imp id fun seen => ?_
  cases vs with
  | nil => cases seen
  | cons v vs =>
    cases first : v.first with
    | none => simp [sees,first] at seen
    | some c =>
      simp only [sees,first,strchr,contains_iff_mem] at seen ⊢
      simpa using all_eq_true.mp larger c seen

omit nulFree in
theorem words_sees {ts vs : List Tok} {argv : List (List UInt8)} {gs : List File} {toks : List UInt8} (words : Words ts argv gs)
    (others : sees toks vs = false) : sees toks (ts ++ vs) = false := by
  cases words with
  | nil => exact others
  | cons redirs rest => rfl

omit nulFree in
theorem redirs_sees {us vs : List Tok} {fs : List File} (redirs : Redirs us fs) (others : sees [40] vs = false) :
    sees [40] (us ++ vs) = false := by
  cases redirs with
  | nil => exact others
  | @cons t w _ _ _ op rest => cases t <;> first | rfl | cases op

theorem parseredirs_complete {us vs : List Tok} {fs : List File} (redirs : Redirs us fs) (others : sees [60,62] vs = false)
    (here : At s p (us ++ vs)) (enough : us.length < turns) :
    Outcome False (parseredirs s turns p) fun r => At s r.2 vs ∧ List.Forall₂ (RedirAt s) r.1 fs := by
  induction redirs generalizing p turns with
  | nil =>
    obtain ⟨turns,rfl⟩ : ∃ k, turns = k + 1 := ⟨turns - 1,by simp at enough; omega⟩
    rw [parseredirs]
    refine outcome_peek nulFree here rfl fun p' here' => ?_
    rw [nil_append,others]
    exact outcome_ok ⟨here',.nil⟩
  | @cons t w f ts fs op rest ih =>
    obtain ⟨turns,rfl⟩ : ∃ k, turns = k + 1 := ⟨turns - 1,by simp at enough; omega⟩
    rw [parseredirs]
    refine outcome_peek nulFree here rfl fun p' here' => ?_
    have seen : sees [60,62] (t :: .word w :: ts ++ vs) = true := by cases t <;> first | rfl | cases op
    rw [seen]
    simp only [if_true]
    refine outcome_token nulFree here' fun tok ret after _ => ?_
    refine outcome_token nulFree after fun file ret' after' span => ?_
    have isWord : ¬file.ret ≠ 97 := by simp [ret',Tok.ret]
    rw [if_neg isWord]
    refine outcome_bind (ih after' (by simp at enough; omega)) fun r parsed => ?_
    obtain ⟨r',isR,stored⟩ : ∃ r, redirOf tok.ret file.q file.eq = [r] ∧ RedirAt s r f := by
      rw [ret]
      cases t <;> cases op <;> exact ⟨_,rfl,span w rfl,rfl,rfl⟩
    refine outcome_ok ⟨parsed.1,?_⟩
    rw [isR]
    exact .cons stored parsed.2

theorem parseargs_complete {us vs : List Tok} {more argv : List (List UInt8)} {gs fs : List File} {spans : List (Nat × Nat)} {rs : List Redir}
    (words : Words us more gs) (follows : Follow [124,41,38,59] vs) (here : At s p (us ++ vs)) (enough : us.length < turns)
    (found : List.Forall₂ (WordAt s) spans argv) (files : List.Forall₂ (RedirAt s) rs fs) (few : (argv ++ more).length ≤ MAXARGS - 1) :
    Outcome False (parseargs s turns spans rs p) fun r => At s r.2 vs ∧ Reads s r.1 ((Tree.exec (argv ++ more)).redirs (fs ++ gs)) := by
  induction words generalizing p turns spans argv rs fs with
  | nil =>
    obtain ⟨turns,rfl⟩ : ∃ k, turns = k + 1 := ⟨turns - 1,by simp at enough; omega⟩
    have reads : Reads s (redircmds (.exec spans) rs) ((Tree.exec argv).redirs fs) := reads_redirs (.exec found (by simpa using few)) files
    rw [parseargs,append_nil,append_nil]
    refine outcome_peek nulFree here rfl fun p' here' => ?_
    rw [nil_append] at here' ⊢
    obtain rfl | seen := follows
    · simp only [sees,Bool.false_eq_true,if_false]
      rw [gettoken_nil here']
      exact outcome_ok ⟨⟨le_refl _,by simp [tokens]⟩,reads⟩
    · rw [seen]
      exact outcome_ok ⟨here',reads⟩
  | @cons w us ts fs' gs more redirs rest ih =>
    obtain ⟨turns,rfl⟩ : ∃ k, turns = k + 1 := ⟨turns - 1,by simp at enough; omega⟩
    rw [parseargs]
    refine outcome_peek nulFree here rfl fun p' here' => ?_
    simp only [cons_append,sees,Tok.first,Bool.false_eq_true,if_false]
    rw [cons_append,append_assoc] at here'
    refine outcome_token nulFree here' fun tok ret after span => ?_
    have isWord : tok.ret = 97 := ret
    have room : ¬spans.length + 1 ≥ MAXARGS := by
      simp only [length_append,← found.length_eq,length_cons,MAXARGS] at few ⊢
      omega
    rw [if_neg (by simp [isWord]),if_neg (by simp [isWord]),if_neg room]
    have others : sees [60,62] (ts ++ vs) = false := words_sees rest (sees_others follows rfl)
    refine outcome_bind (parseredirs_complete nulFree redirs others after (by simp at enough; omega)) fun r parsed => ?_
    have word : WordAt s (tok.q,tok.eq) w := span w rfl
    have found' := rel_append found (.cons word .nil)
    have shorter : ts.length < turns := by simp at enough; omega
    have tail := ih parsed.1 shorter found' (rel_append files parsed.2) (by simpa using few)
    simpa using tail

theorem parsebacks_complete {n : Nat} {vs : List Tok} {c : Cmd} {t : Tree} (others : sees [38] vs = false)
    (here : At s p (replicate n .amp ++ vs)) (enough : n < turns) (reads : Reads s c t) :
    Outcome False (parsebacks s turns c p) fun r => At s r.2 vs ∧ Reads s r.1 (t.backs n) := by
  induction n generalizing p turns c t with
  | zero =>
    obtain ⟨turns,rfl⟩ : ∃ k, turns = k + 1 := ⟨turns - 1,by omega⟩
    rw [parsebacks]
    refine outcome_peek nulFree here rfl fun p' here' => ?_
    rw [replicate_zero,nil_append] at here' ⊢
    rw [others]
    exact outcome_ok ⟨here',reads⟩
  | succ n ih =>
    obtain ⟨turns,rfl⟩ : ∃ k, turns = k + 1 := ⟨turns - 1,by omega⟩
    rw [parsebacks]
    refine outcome_peek nulFree here rfl fun p' here' => ?_
    rw [replicate_succ,cons_append] at here' ⊢
    refine outcome_token nulFree here' fun tok _ after _ => ?_
    rw [← backs_back]
    exact ih after (by omega) reads.back

def parse (s : List UInt8) : Nonterminal → Nat → Nat → Except Err (Cmd × Nat)
  | .line => parseline s
  | .pipe => parsepipe s
  | .exec => parseexec s

def Nonterminal.calls : Nonterminal → Nat
  | .line => 4
  | .pipe => 3
  | .exec => 2

/-- Started at the tokens of a command and of what can follow one, its function stops between the two. -/
def Complete (s : List UInt8) (n : Nonterminal) (ts : List Tok) (t : Tree) : Prop :=
  ∀ {p turns : Nat} {vs : List Tok}, Follow n.follow vs → At s p (ts ++ vs) → 4 * ts.length + n.calls ≤ turns →
    Outcome False (parse s n turns p) fun r => At s r.2 vs ∧ Reads s r.1 t

theorem complete_block {ts us : List Tok} {t : Tree} {fs : List File} (line : Complete s .line ts t) (redirs : Redirs us fs) :
    Complete s .exec (.lpar :: (ts ++ .rpar :: us)) (t.redirs fs) := by
  intro p turns vs follows here enough
  simp only [length_cons,length_append,Nonterminal.calls] at enough
  obtain ⟨turns,rfl⟩ : ∃ k, turns = k + 2 := ⟨turns - 2,by omega⟩
  rw [parse,parseexec]
  refine outcome_peek nulFree here rfl fun p' here' => ?_
  simp only [cons_append,append_assoc] at here' ⊢
  rw [show sees [40] (.lpar :: (ts ++ (.rpar :: (us ++ vs)))) = true from rfl]
  simp only [if_true]
  rw [parseblock]
  refine outcome_peek nulFree here' rfl fun p' here' => ?_
  refine outcome_token nulFree here' fun tok _ after _ => ?_
  refine outcome_bind (line (.inr rfl) after (by simp only [Nonterminal.calls]; omega)) fun r parsed => ?_
  refine outcome_peek nulFree parsed.1 rfl fun p' rest => ?_
  refine outcome_token nulFree rest fun tok _ after _ => ?_
  have others : sees [60,62] vs = false := sees_others follows rfl
  refine outcome_bind (parseredirs_complete nulFree redirs others after (by omega)) fun r' parsed' => ?_
  exact outcome_ok ⟨parsed'.1,reads_redirs parsed.2 parsed'.2⟩

theorem complete_words {us ts : List Tok} {fs gs : List File} {argv : List (List UInt8)} (redirs : Redirs us fs) (words : Words ts argv gs)
    (few : argv.length ≤ MAXARGS - 1) : Complete s .exec (us ++ ts) ((Tree.exec argv).redirs (fs ++ gs)) := by
  intro p turns vs follows here enough
  simp only [length_append,Nonterminal.calls] at enough
  obtain ⟨turns,rfl⟩ : ∃ k, turns = k + 1 := ⟨turns - 1,by omega⟩
  rw [parse,parseexec]
  refine outcome_peek nulFree here rfl fun p' here' => ?_
  rw [append_assoc] at here' ⊢
  rw [redirs_sees redirs (words_sees words (sees_others follows rfl))]
  simp only [Bool.false_eq_true,if_false]
  have others : sees [60,62] (ts ++ vs) = false := words_sees words (sees_others follows rfl)
  refine outcome_bind (parseredirs_complete nulFree redirs others here' (by omega)) fun r parsed => ?_
  exact parseargs_complete nulFree words follows parsed.1 (by omega) .nil parsed.2 few

theorem complete_pipe {ts us : List Tok} {t u : Tree} (exec : Complete s .exec ts t) (pipe : Complete s .pipe us u) :
    Complete s .pipe (ts ++ .bar :: us) (.pipe t u) := by
  intro p turns vs follows here enough
  simp only [length_append,length_cons,Nonterminal.calls] at enough
  obtain ⟨turns,rfl⟩ : ∃ k, turns = k + 1 := ⟨turns - 1,by omega⟩
  rw [append_assoc,cons_append] at here
  rw [parse,parsepipe]
  refine outcome_bind (exec (.inr rfl) here (by simp only [Nonterminal.calls]; omega)) fun r parsed => ?_
  refine outcome_peek nulFree parsed.1 rfl fun p' rest => ?_
  refine outcome_token nulFree rest fun tok _ after _ => ?_
  refine outcome_bind (pipe follows after (by simp only [Nonterminal.calls]; omega)) fun r' parsed' => ?_
  exact outcome_ok ⟨parsed'.1,.pipe parsed.2 parsed'.2⟩

theorem complete_exec {ts : List Tok} {t : Tree} (exec : Complete s .exec ts t) : Complete s .pipe ts t := by
  intro p turns vs follows here enough
  simp only [Nonterminal.calls] at enough
  obtain ⟨turns,rfl⟩ : ∃ k, turns = k + 1 := ⟨turns - 1,by omega⟩
  rw [parse,parsepipe]
  refine outcome_bind (exec (sees_more follows rfl) here (by simp only [Nonterminal.calls]; omega)) fun r parsed => ?_
  refine outcome_peek nulFree parsed.1 rfl fun p' rest => ?_
  rw [sees_others follows rfl]
  exact outcome_ok ⟨rest,parsed.2⟩

theorem complete_backs {ts vs : List Tok} {t : Tree} {n : Nat} (pipe : Complete s .pipe ts t) (follows : Follow [41,59] vs)
    (here : At s p (ts ++ (replicate n .amp ++ vs))) (enough : 4 * (ts.length + n) + 3 ≤ turns) :
    Outcome False (parsepipe s turns p >>= fun r => parsebacks s turns r.1 r.2) fun r => At s r.2 vs ∧ Reads s r.1 (t.backs n) := by
  have followed : Follow [41,38,59] (replicate n .amp ++ vs) := by
    cases n with
    | zero => exact sees_more follows rfl
    | succ n => exact .inr rfl
  refine outcome_bind (pipe followed here (by simp only [Nonterminal.calls]; omega)) fun r parsed => ?_
  exact parsebacks_complete nulFree (sees_others follows rfl) parsed.1 (by omega) parsed.2

theorem complete_line {ts : List Tok} {t : Tree} (n : Nat) (pipe : Complete s .pipe ts t) :
    Complete s .line (ts ++ replicate n .amp) (t.backs n) := by
  intro p turns vs follows here enough
  simp only [length_append,length_replicate,Nonterminal.calls] at enough
  obtain ⟨turns,rfl⟩ : ∃ k, turns = k + 1 := ⟨turns - 1,by omega⟩
  rw [append_assoc] at here
  rw [parse,parseline,← bind_assoc]
  refine outcome_bind (complete_backs nulFree pipe (sees_more follows rfl) here (by omega)) fun r parsed => ?_
  refine outcome_peek nulFree parsed.1 rfl fun p' rest => ?_
  rw [sees_others follows rfl]
  exact outcome_ok ⟨rest,parsed.2⟩

theorem complete_list {ts us : List Tok} {t u : Tree} (n : Nat) (pipe : Complete s .pipe ts t) (line : Complete s .line us u) :
    Complete s .line (ts ++ (replicate n .amp ++ .semi :: us)) (.list (t.backs n) u) := by
  intro p turns vs follows here enough
  simp only [length_append,length_replicate,length_cons,Nonterminal.calls] at enough
  obtain ⟨turns,rfl⟩ : ∃ k, turns = k + 1 := ⟨turns - 1,by omega⟩
  simp only [append_assoc,cons_append] at here
  rw [parse,parseline,← bind_assoc]
  refine outcome_bind (complete_backs nulFree pipe (.inr rfl) here (by omega)) fun r parsed => ?_
  refine outcome_peek nulFree parsed.1 rfl fun p' rest => ?_
  refine outcome_token nulFree rest fun tok _ after _ => ?_
  refine outcome_bind (line follows after (by simp only [Nonterminal.calls]; omega)) fun r' parsed' => ?_
  exact outcome_ok ⟨parsed'.1,.list parsed.2 parsed'.2⟩

theorem complete {n : Nonterminal} {ts : List Tok} {t : Tree} (derived : Derives n ts t) : Complete s n ts t := by
  induction derived with
  | line n _ pipe => exact complete_line nulFree n pipe
  | list n _ _ pipe line => exact complete_list nulFree n pipe line
  | exec _ exec => exact complete_exec nulFree exec
  | pipe _ _ exec pipe => exact complete_pipe nulFree exec pipe
  | block _ redirs line => exact complete_block nulFree line redirs
  | words redirs words few => exact complete_words nulFree redirs words few

end

def cstring (mem : List UInt8) (q : Nat) : List UInt8 := (mem.drop q).takeWhile (· ≠ 0)

/-- The array `argv` of an `execcmd`: the pointers that were stored, and null pointers. -/
def slots (argv : List (Nat × Nat)) : List (Option Nat) := (argv.map (fun (word : Nat × Nat) => some word.1) ++ List.replicate MAXARGS none).take MAXARGS

/-- The strings of an array up to its null pointer, if it has one. -/
def strings (mem : List UInt8) : List (Option Nat) → Option (List (List UInt8))
  | [] => none
  | none :: _ => some []
  | some q :: rest => (strings mem rest).map (cstring mem q :: ·)

/-- The tree of words that a command in memory stands for. -/
def Cmd.read (mem : List UInt8) : Cmd → Option Tree
  | .exec argv => (strings mem (slots argv)).map Tree.exec
  | .redir cmd r => (cmd.read mem).map fun t => .redir t ⟨cstring mem r.file,r.mode,r.fd⟩
  | .pipe left right => do pure (.pipe (← left.read mem) (← right.read mem))
  | .list left right => do pure (.list (← left.read mem) (← right.read mem))
  | .back cmd => (cmd.read mem).map Tree.back

def Cmd.ends : Cmd → List Nat
  | .exec argv => argv.map Prod.snd
  | .redir cmd r => cmd.ends ++ [r.efile]
  | .pipe left right => left.ends ++ right.ends
  | .list left right => left.ends ++ right.ends
  | .back cmd => cmd.ends

def nuls (mem : List UInt8) (ends : List Nat) : List UInt8 := ends.foldl (fun mem e => mem.set e 0) mem

theorem nulterminate_eq (cmd : Cmd) (mem : List UInt8) : nulterminate cmd mem = nuls mem cmd.ends := by
  induction cmd generalizing mem with
  | exec argv => simp [nulterminate,nuls,Cmd.ends,foldl_map]
  | redir cmd r ih => simp [nulterminate,nuls,Cmd.ends,ih]
  | pipe left right ihl ihr => simp [nulterminate,nuls,Cmd.ends,ihl,ihr]
  | list left right ihl ihr => simp [nulterminate,nuls,Cmd.ends,ihl,ihr]
  | back cmd ih => simpa [nulterminate,Cmd.ends] using ih mem

theorem nuls_get (mem : List UInt8) (ends : List Nat) (i : Nat) :
    (nuls mem ends)[i]? = if i ∈ ends ∧ i < mem.length then some 0 else mem[i]? := by
  induction ends generalizing mem with
  | nil => simp [nuls]
  | cons e ends ih =>
    have step : nuls mem (e :: ends) = nuls (mem.set e 0) ends := rfl
    rw [step,ih]
    simp only [length_set,mem_cons,getElem?_set]
    grind

/-- A word that ends at one of the places, where all places are at the end of words. -/
theorem cstring_word {ends : List Nat} {q eq : Nat} {w : List UInt8} (nulFree : ∀ c ∈ s, c ≠ 0) (span : Span s q eq w) (ended : eq ∈ ends)
    (marks : ∀ e ∈ ends, ∀ c, s[e]? = some c → inWord c = false) : cstring (nuls (s ++ [0]) ends) q = w := by
  obtain ⟨long,inside,bytes,isWord,-⟩ := span
  have stored (i : Nat) (within : i < w.length) : (nuls (s ++ [0]) ends)[q + i]? = w[i]? := by
    have byte : s[q + i]? = w[i]? := by
      rw [← getElem?_drop,← getElem?_take_of_lt within,bytes]
    have notEnd : ¬(q + i ∈ ends ∧ q + i < (s ++ [0]).length) := by
      rintro ⟨mem,-⟩
      have mark := marks _ mem (w.get ⟨i,within⟩) (by simp [byte,within])
      rw [isWord _ (get_mem ..)] at mark
      cases mark
    rw [nuls_get,if_neg notEnd,getElem?_append_left (by omega),byte]
  have nul : (nuls (s ++ [0]) ends)[eq]? = some 0 := by
    rw [nuls_get,if_pos ⟨ended,by simp; omega⟩]
  have split : (nuls (s ++ [0]) ends).drop q = w ++ 0 :: (nuls (s ++ [0]) ends).drop (eq + 1) := by
    apply ext_getElem?
    intro i
    rw [getElem?_drop]
    rcases Nat.lt_trichotomy i w.length with within | rfl | after
    · rw [stored i within,getElem?_append_left within]
    · rw [long,nul,getElem?_append_right le_rfl]
      simp
    · obtain ⟨k,rfl⟩ : ∃ k, i = w.length + 1 + k := ⟨i - (w.length + 1),by omega⟩
      rw [getElem?_append_right (by omega),show w.length + 1 + k - w.length = k + 1 by omega,getElem?_cons_succ,getElem?_drop]
      congr 1
      omega
  have noNul : ∀ c ∈ w, (c ≠ 0 : Bool) = true := by
    intro c mem
    rw [← bytes] at mem
    simpa using nulFree c (mem_of_mem_drop (mem_of_mem_take mem))
  rw [cstring,split,takeWhile_append_of_pos noNul]
  simp

theorem strings_slots {ends : List Nat} {spans : List (Nat × Nat)} {argv : List (List UInt8)} {room : Nat} (nulFree : ∀ c ∈ s, c ≠ 0)
    (found : List.Forall₂ (WordAt s) spans argv) (ended : ∀ span ∈ spans, span.2 ∈ ends)
    (marks : ∀ e ∈ ends, ∀ c, s[e]? = some c → inWord c = false) (few : argv.length < room) :
    strings (nuls (s ++ [0]) ends) ((spans.map (fun (word : Nat × Nat) => some word.1) ++ replicate MAXARGS none).take room) = some argv := by
  induction found generalizing room with
  | nil =>
    obtain ⟨room,rfl⟩ : ∃ k, room = k + 1 := ⟨room - 1,by simp at few; omega⟩
    rfl
  | cons first _ ih =>
    obtain ⟨room,rfl⟩ : ∃ k, room = k + 1 := ⟨room - 1,by simp at few; omega⟩
    rw [map_cons,cons_append,take_succ_cons,strings,cstring_word nulFree first (ended _ (by simp)) marks,
      ih (fun span mem => ended span (by simp [mem])) (by simpa using few)]
    rfl

theorem read_eq {ends : List Nat} {cmd : Cmd} {t : Tree} (nulFree : ∀ c ∈ s, c ≠ 0) (reads : Reads s cmd t) (ended : cmd.ends ⊆ ends)
    (marks : ∀ e ∈ ends, ∀ c, s[e]? = some c → inWord c = false) : cmd.read (nuls (s ++ [0]) ends) = some t := by
  induction reads with
  | @exec spans argv found few =>
    have all : ∀ span ∈ spans, span.2 ∈ ends := fun span mem => ended (mem_map_of_mem mem)
    rw [Cmd.read,slots,strings_slots nulFree found all marks (Nat.lt_of_le_pred (by decide) few)]
    rfl
  | redir _ file ih =>
    obtain ⟨span,mode,fd⟩ := file
    simp [Cmd.read,ih fun _ mem => ended (by simp [Cmd.ends,mem]),cstring_word nulFree span (ended (by simp [Cmd.ends])) marks,mode,fd]
  | pipe _ _ left right =>
    simp [Cmd.read,left fun _ mem => ended (by simp [Cmd.ends,mem]),right fun _ mem => ended (by simp [Cmd.ends,mem])]
  | list _ _ left right =>
    simp [Cmd.read,left fun _ mem => ended (by simp [Cmd.ends,mem]),right fun _ mem => ended (by simp [Cmd.ends,mem])]
  | back _ ih => simp [Cmd.read,ih ended]

theorem span_mark {q eq : Nat} {w : List UInt8} (span : Span s q eq w) {c : UInt8} (byte : s[eq]? = some c) : inWord c = false := by
  obtain ⟨inside,rfl⟩ := List.getElem?_eq_some_iff.mp byte
  exact span.2.2.2.2 _ _ (drop_eq_getElem_cons inside)

theorem words_marks {spans : List (Nat × Nat)} {argv : List (List UInt8)} (words : List.Forall₂ (WordAt s) spans argv) :
    ∀ e ∈ spans.map Prod.snd, ∀ c, s[e]? = some c → inWord c = false := by
  induction words with
  | nil => simp
  | cons first _ ih =>
    rw [map_cons,forall_mem_cons]
    exact ⟨fun _ byte => span_mark first byte,ih⟩

theorem reads_marks {cmd : Cmd} {t : Tree} (reads : Reads s cmd t) : ∀ e ∈ cmd.ends, ∀ c, s[e]? = some c → inWord c = false := by
  induction reads with
  | exec found _ => exact words_marks found
  | redir _ file ih =>
    rw [Cmd.ends,forall_mem_append]
    refine ⟨ih,fun e mem c byte => ?_⟩
    rw [mem_singleton.mp mem] at byte
    exact span_mark file.1 byte
  | pipe _ _ left right => exact forall_mem_append.mpr ⟨left,right⟩
  | list _ _ left right => exact forall_mem_append.mpr ⟨left,right⟩
  | back _ ih => exact ih

theorem tokens_length (bytes : List UInt8) : (tokens bytes).length ≤ bytes.length := by
  fun_induction tokens bytes with
  | case1 => simp
  | case2 c rest blank ih => simp; omega
  | case3 rest _ _ ih => simp at ih ⊢; omega
  | case4 rest _ _ ih => simpa using ih
  | case5 c rest _ _ op _ ih => simpa using ih
  | case6 c rest _ _ _ ih =>
    have shorter := (dropWhile_sublist (l := rest) inWord).length_le
    simp
    omega

theorem parsecmd_ok {cmd : Cmd} {t : Tree} (nulFree : ∀ c ∈ s, c ≠ 0) (run : parseline s (turnsFor s) 0 = .ok (cmd,p)) (here : At s p [])
    (reads : Reads s cmd t) : ∃ mem, parsecmd s = .ok (cmd,mem) ∧ cmd.read mem = some t := by
  refine ⟨nulterminate cmd (s ++ [0]),?_,?_⟩
  · have last := peek_at nulFree here (forall_mem_nil _)
    rw [here.skip_end] at last
    simp [parsecmd,run,last]
  · rw [nulterminate_eq]
    exact read_eq nulFree reads (fun _ mem => mem) (reads_marks reads)

theorem parsecmd_left {cmd : Cmd} {ts : List Tok} (nulFree : ∀ c ∈ s, c ≠ 0) (run : parseline s (turnsFor s) 0 = .ok (cmd,p)) (here : At s p ts)
    (left : ts ≠ []) : parsecmd s = .error (.panic "syntax") := by
  have next := peek_at nulFree here (forall_mem_nil _)
  have before : skip s isBlank p ≠ s.length := by
    intro last
    have rest := here.skip.2
    rw [last,drop_length,tokens] at rest
    exact left rest.symm
  simp [parsecmd,run,next,before]

theorem parseline_complete {t : Tree} (nulFree : ∀ c ∈ s, c ≠ 0) (derived : Derives .line (tokens s) t) :
    ∃ cmd p, parseline s (turnsFor s) 0 = .ok (cmd,p) ∧ At s p [] ∧ Reads s cmd t := by
  have start : At s 0 (tokens s ++ []) := ⟨Nat.zero_le _,by simp⟩
  have few := tokens_length s
  have enough : 4 * (tokens s).length + Nonterminal.line.calls ≤ turnsFor s := by simp only [Nonterminal.calls,turnsFor]; omega
  obtain ⟨⟨cmd,p⟩,run,parsed⟩ | ⟨never,-⟩ := complete nulFree derived (.inl rfl) start enough
  · exact ⟨cmd,p,run,parsed⟩
  · exact never.elim

theorem parsecmd_complete {t : Tree} (nulFree : ∀ c ∈ s, c ≠ 0) (derived : Derives .line (tokens s) t) :
    ∃ cmd mem, parsecmd s = .ok (cmd,mem) ∧ cmd.read mem = some t := by
  obtain ⟨cmd,p,run,here,reads⟩ := parseline_complete nulFree derived
  exact ⟨cmd,parsecmd_ok nulFree run here reads⟩

theorem parsecmd_sound (nulFree : ∀ c ∈ s, c ≠ 0) :
    Outcome True (parsecmd s) fun r => ∃ t, r.1.read r.2 = some t ∧ Derives .line (tokens s) t := by
  have few := tokens_length s
  have enough : 4 * ((tokens s).length + 1) ≤ turnsFor s := by simp only [turnsFor]; omega
  obtain ⟨⟨cmd,p⟩,run,us,vs,t,split,here,derived,reads⟩ | ⟨-,message,failed⟩ :=
    (sound nulFree enough).1 0 (tokens s) ⟨Nat.zero_le _,by simp⟩ (Nat.lt_succ_self _)
  · cases vs with
    | nil =>
      obtain ⟨mem,parsed,read⟩ := parsecmd_ok nulFree run here reads
      rw [append_nil] at split
      rw [parsed]
      exact outcome_ok ⟨t,read,split ▸ derived⟩
    | cons v vs =>
      rw [parsecmd_left nulFree run here (by simp)]
      exact outcome_panic _
  · rw [parsecmd,failed]
    exact outcome_panic _

/-- The parser accepts its grammar: it returns the tree of the one derivation of the line, or there is none and it panics. -/
theorem parsecmd_grammar (nulFree : ∀ c ∈ s, c ≠ 0) :
    (∃ cmd mem tree, parsecmd s = .ok (cmd,mem) ∧ cmd.read mem = some tree ∧ Derives .line (tokens s) tree ∧
        ∀ other, Derives .line (tokens s) other → other = tree) ∨
      (∃ message, parsecmd s = .error (.panic message)) ∧ ∀ tree, ¬Derives .line (tokens s) tree := by
  obtain ⟨⟨cmd,mem⟩,parsed,t,read,derived⟩ | ⟨-,message,failed⟩ := parsecmd_sound nulFree
  · left
    refine ⟨cmd,mem,t,parsed,read,derived,fun other derived' => ?_⟩
    obtain ⟨cmd',mem',parsed',read'⟩ := parsecmd_complete nulFree derived'
    rw [parsed] at parsed'
    cases parsed'
    rw [read] at read'
    exact (Option.some.inj read').symm
  · right
    refine ⟨⟨message,failed⟩,fun tree derived => ?_⟩
    obtain ⟨cmd,mem,parsed,-⟩ := parsecmd_complete nulFree derived
    rw [failed] at parsed
    cases parsed

theorem parsecmd_grammar_ls :
    (∀ c ∈ ([108,115,62,97] : List UInt8), c ≠ 0) ∧
      ((∃ cmd mem tree, parsecmd [108,115,62,97] = .ok (cmd,mem) ∧ cmd.read mem = some tree ∧ Derives .line (tokens [108,115,62,97]) tree ∧
          ∀ other, Derives .line (tokens [108,115,62,97]) other → other = tree) ∨
        (∃ message, parsecmd [108,115,62,97] = .error (.panic message)) ∧ ∀ tree, ¬Derives .line (tokens [108,115,62,97]) tree) :=
  ⟨by simp,parsecmd_grammar (by simp)⟩

end Osce.Sh
