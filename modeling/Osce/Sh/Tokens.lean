import Osce.Sh.Grammar

/-!
The words of a command in the buffer of the line. All words share the buffer, and `nulterminate` writes a NUL behind each of them; the byte that it
overwrites is never part of a word, so every word is still there as a string.
-/
namespace Osce.Sh
open List

variable {s : List UInt8} {cmd : Cmd} {t : Tree}

/-- The words that a command refers to: where each begins and ends. -/
def Cmd.words : Cmd → List (Nat × Nat)
  | .exec argv => argv
  | .redir cmd r => cmd.words ++ [(r.file,r.efile)]
  | .pipe left right => left.words ++ right.words
  | .list left right => left.words ++ right.words
  | .back cmd => cmd.words

def Tree.words : Tree → List (List UInt8)
  | .exec argv => argv
  | .redir cmd file => cmd.words ++ [file.name]
  | .pipe left right => left.words ++ right.words
  | .list left right => left.words ++ right.words
  | .back cmd => cmd.words

theorem Cmd.ends_eq (cmd : Cmd) : cmd.ends = cmd.words.map Prod.snd := by
  induction cmd with
  | exec argv => rfl
  | redir cmd r ih => simp [Cmd.ends,Cmd.words,ih]
  | pipe left right ihl ihr => simp [Cmd.ends,Cmd.words,ihl,ihr]
  | list left right ihl ihr => simp [Cmd.ends,Cmd.words,ihl,ihr]
  | back cmd ih => exact ih

theorem Reads.words (reads : Reads s cmd t) : List.Forall₂ (WordAt s) cmd.words t.words := by
  induction reads with
  | exec found _ => exact found
  | redir _ file ih => exact rel_append ih (.cons file.1 .nil)
  | pipe _ _ left right => exact rel_append left right
  | list _ _ left right => exact rel_append left right
  | back _ ih => exact ih

theorem Reads.word_at (reads : Reads s cmd t) {word : Nat × Nat} (member : word ∈ cmd.words) : ∃ w ∈ t.words, WordAt s word w := by
  have found := reads.words
  generalize cmd.words = words,t.words = ws at found member
  induction found with
  | nil => cases member
  | cons here _ ih =>
    rcases mem_cons.mp member with rfl | later
    · exact ⟨_,mem_cons_self ..,here⟩
    · obtain ⟨w,isWord,wordAt⟩ := ih later
      exact ⟨w,mem_cons_of_mem _ isWord,wordAt⟩

theorem Redirs.words {us : List Tok} {fs : List File} (redirs : Redirs us fs) : ∀ f ∈ fs, .word f.name ∈ us := by
  induction redirs with
  | nil => simp
  | @cons op w f ts fs isOp _ ih =>
    have name : f.name = w := by
      cases op <;> cases isOp <;> rfl
    intro g member
    rcases mem_cons.mp member with rfl | later
    · simp [name]
    · simp [ih g later]

theorem Words.words {ts : List Tok} {argv : List (List UInt8)} {gs : List File} (words : Words ts argv gs) :
    (∀ w ∈ argv, .word w ∈ ts) ∧ ∀ g ∈ gs, .word g.name ∈ ts := by
  induction words with
  | nil => simp
  | cons redirs _ ih =>
    obtain ⟨args,files⟩ := ih
    constructor
    · intro w member
      rcases mem_cons.mp member with rfl | later
      · simp
      · simp [args w later]
    · intro g member
      rcases mem_append.mp member with first | later
      · simp [redirs.words g first]
      · simp [files g later]

theorem Tree.words_redirs (t : Tree) (fs : List File) : (t.redirs fs).words = t.words ++ fs.map File.name := by
  induction fs generalizing t with
  | nil => simp [Tree.redirs]
  | cons f fs ih =>
    have step : t.redirs (f :: fs) = (t.redir f).redirs fs := rfl
    rw [step,ih]
    simp [Tree.words]

theorem Tree.words_backs (t : Tree) (n : Nat) : (t.backs n).words = t.words := by
  induction n with
  | zero => rfl
  | succ n ih => exact ih

theorem Derives.word_mem {n : Nonterminal} {ts : List Tok} (derived : Derives n ts t) : ∀ w ∈ t.words, .word w ∈ ts := by
  induction derived with
  | line k _ ih =>
    intro w member
    rw [Tree.words_backs] at member
    simp [ih w member]
  | list k _ _ left right =>
    intro w member
    rw [Tree.words,Tree.words_backs] at member
    rcases mem_append.mp member with first | second
    · simp [left w first]
    · simp [right w second]
  | exec _ ih => exact ih
  | pipe _ _ left right =>
    intro w member
    rcases mem_append.mp member with first | second
    · simp [left w first]
    · simp [right w second]
  | block _ redirs ih =>
    intro w member
    rw [Tree.words_redirs] at member
    rcases mem_append.mp member with first | second
    · simp [ih w first]
    · obtain ⟨f,isFile,rfl⟩ := mem_map.mp second
      simp [redirs.words f isFile]
  | words redirs args few =>
    intro w member
    rw [Tree.words_redirs,map_append] at member
    rcases mem_append.mp member with first | second
    · simp [args.words.1 w first]
    · rcases mem_append.mp second with before | after
      · obtain ⟨f,isFile,rfl⟩ := mem_map.mp before
        simp [redirs.words f isFile]
      · obtain ⟨f,isFile,rfl⟩ := mem_map.mp after
        simp [args.words.2 f isFile]

theorem tokens_words (bytes w : List UInt8) (member : .word w ∈ tokens bytes) : w ≠ [] := by
  fun_induction tokens bytes with
  | case1 => cases member
  | case2 c rest blank ih => exact ih member
  | case3 rest _ _ ih => exact ih (by simpa using member)
  | case4 rest _ _ ih => exact ih (by simpa using member)
  | case5 c rest _ _ op isOp ih =>
    rcases mem_cons.mp member with same | later
    · obtain ⟨_,byte,_⟩ := opOf_eq isOp
      rw [← same] at byte
      cases byte
    · exact ih later
  | case6 c rest _ _ _ ih =>
    rcases mem_cons.mp member with same | later
    · cases same
      simp
    · exact ih later

theorem Span.takeWhile {q eq : Nat} {w : List UInt8} (span : Span s q eq w) : (s.drop q).takeWhile inWord = w := by
  obtain ⟨long,inside,bytes,isWord,stop⟩ := span
  have split : s.drop q = w ++ s.drop eq := by
    rw [← long,← drop_drop]
    conv_lhs => rw [← take_append_drop w.length (s.drop q),bytes]
  rw [split,takeWhile_append_of_pos isWord]
  cases after : s.drop eq with
  | nil => simp
  | cons c rest => simp [stop c rest after]

theorem gettoken_word {q eq : Nat} {w : List UInt8} (nulFree : ∀ c ∈ s, c ≠ 0) (span : Span s q eq w) (some : w ≠ []) :
    ∃ tok, gettoken s q = .ok tok ∧ tok.ret = 97 ∧ tok.q = q ∧ tok.eq = eq := by
  have whole := span.takeWhile
  obtain ⟨long,inside,bytes,isWord,stop⟩ := span
  cases from' : s.drop q with
  | nil =>
    rw [from'] at whole
    exact absurd whole.symm some
  | cons c rest =>
    have first : inWord c = true := by
      rw [from',takeWhile_cons] at whole
      by_contra other
      rw [if_neg other] at whole
      exact some whole.symm
    have notNul : c ≠ 0 := nulFree c (mem_of_mem_drop (from' ▸ mem_cons_self ..))
    have notBlank : isBlank c = false := by
      rw [inWord] at first
      simp_all [isBlank]
    have stays : skip s isBlank q = q := by
      rw [skip_eq,from',takeWhile_cons_of_neg (by simp [notBlank])]
      rfl
    have notOp : ¬(c = 124 ∨ c = 40 ∨ c = 41 ∨ c = 59 ∨ c = 38 ∨ c = 60) ∧ c ≠ 62 := by
      simp only [inWord,strchr,symbols] at first
      grind
    have ends : skip s inWord q = eq := by rw [skip_eq,whole,long]
    refine ⟨⟨97,q,eq,skip s isBlank eq⟩,?_,rfl,rfl,rfl⟩
    simp [gettoken,stays,tokenAt,load_cons from',notNul,notOp.1,notOp.2,ends]

/-- What the parser returns: a tree of tokens, and the line with a NUL behind each word. -/
theorem parsecmd_reads {mem : List UInt8} (nulFree : ∀ c ∈ s, c ≠ 0) (parsed : parsecmd s = .ok (cmd,mem)) :
    ∃ t, Reads s cmd t ∧ Derives .line (tokens s) t ∧ mem = nuls (s ++ [0]) cmd.ends := by
  have few := tokens_length s
  have enough : 4 * ((tokens s).length + 1) ≤ turnsFor s := by
    simp only [turnsFor]
    omega
  obtain ⟨⟨cmd',p⟩,run,us,vs,t,split,here,derived,reads⟩ | ⟨-,message,failed⟩ :=
    (sound nulFree enough).1 0 (tokens s) ⟨Nat.zero_le _,by simp⟩ (Nat.lt_succ_self _)
  · cases vs with
    | nil =>
      have last := peek_at nulFree here (forall_mem_nil _)
      rw [here.skip_end] at last
      simp only [parsecmd,run,ok_bind,last,ne_eq,not_true_eq_false,if_false,pure_ok,Except.ok.injEq,Prod.mk.injEq] at parsed
      obtain ⟨rfl,rfl⟩ := parsed
      rw [append_nil] at split
      exact ⟨t,reads,split ▸ derived,nulterminate_eq ..⟩
    | cons v vs =>
      rw [parsecmd_left nulFree run here (by simp)] at parsed
      cases parsed
  · rw [parsecmd,failed] at parsed
    cases parsed

theorem length_nuls (mem : List UInt8) (ends : List Nat) : (nuls mem ends).length = mem.length := by
  induction ends generalizing mem with
  | nil => rfl
  | cons e ends ih =>
    rw [show nuls mem (e :: ends) = nuls (mem.set e 0) ends from rfl,ih,length_set]

/-- After `nulterminate` each word of the tree is the string that `gettoken` has found there, no NUL was written into a word, and all were
    written into the line or over its NUL. -/
theorem tokens_intact {mem : List UInt8} (nulFree : ∀ c ∈ s, c ≠ 0) (parsed : parsecmd s = .ok (cmd,mem)) :
    mem = nuls (s ++ [0]) (cmd.words.map Prod.snd) ∧ mem.length = s.length + 1 ∧ ∀ word ∈ cmd.words,
      (∃ p tok, gettoken s p = .ok tok ∧ tok.ret = 97 ∧ tok.q = word.1 ∧ tok.eq = word.2) ∧
      cstring mem word.1 = (s.drop word.1).take (word.2 - word.1) ∧ word.2 ≤ s.length ∧
      ∀ other ∈ cmd.words, ¬(other.1 ≤ word.2 ∧ word.2 < other.2) := by
  obtain ⟨t,reads,derived,isMem⟩ := parsecmd_reads nulFree parsed
  have marks := reads_marks reads
  have spans (word : Nat × Nat) (member : word ∈ cmd.words) : ∃ w, w ≠ [] ∧ Span s word.1 word.2 w := by
    obtain ⟨w,isWord,span⟩ := reads.word_at member
    exact ⟨w,tokens_words s w (derived.word_mem w isWord),span⟩
  refine ⟨by rw [isMem,Cmd.ends_eq],by rw [isMem,length_nuls,length_append,length_singleton],fun word member => ?_⟩
  obtain ⟨w,some,span⟩ := spans word member
  have ended : word.2 ∈ cmd.ends := by
    rw [Cmd.ends_eq]
    exact mem_map_of_mem member
  refine ⟨⟨word.1,gettoken_word nulFree span some⟩,?_,span.2.1,fun other isOther within => ?_⟩
  · have length : word.2 - word.1 = w.length := by
      have := span.1
      omega
    rw [isMem,cstring_word nulFree span ended marks,length,span.2.2.1]
  · -- the byte behind a word is in no word
    obtain ⟨v,-,otherSpan⟩ := spans other isOther
    obtain ⟨long,inside,bytes,isWord,-⟩ := otherSpan
    have index : word.2 - other.1 < v.length := by omega
    have byte : s[word.2]? = Option.some (v.get ⟨word.2 - other.1,index⟩) := by
      have here : ((s.drop other.1).take v.length)[word.2 - other.1]? = v[word.2 - other.1]? := by rw [bytes]
      rw [getElem?_take_of_lt index,getElem?_drop,show other.1 + (word.2 - other.1) = word.2 by omega] at here
      rw [here,getElem?_eq_getElem index]
      rfl
    have mark := marks word.2 ended _ byte
    rw [isWord _ (get_mem ..)] at mark
    cases mark

theorem tokens_intact_ls : ∃ cmd mem, parsecmd [108,115,62,97] = .ok (cmd,mem) ∧ cmd.words = [(0,2),(3,4)] ∧
    mem = nuls ([108,115,62,97] ++ [0]) (cmd.words.map Prod.snd) ∧ mem.length = 5 ∧ ∀ word ∈ cmd.words,
      (∃ p tok, gettoken [108,115,62,97] p = .ok tok ∧ tok.ret = 97 ∧ tok.q = word.1 ∧ tok.eq = word.2) ∧
      cstring mem word.1 = ([108,115,62,97].drop word.1).take (word.2 - word.1) ∧ word.2 ≤ 4 ∧
      ∀ other ∈ cmd.words, ¬(other.1 ≤ word.2 ∧ word.2 < other.2) := by
  have parsed : parsecmd [108,115,62,97] = .ok (.redir (.exec [(0,2)]) ⟨3,4,O_WRONLY + O_CREATE,1⟩,[108,115,0,97,0]) := rfl
  exact ⟨_,_,parsed,rfl,tokens_intact (by simp) parsed⟩

end Osce.Sh
