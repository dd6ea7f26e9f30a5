import Mathlib

/-!
The matcher of `grep`: `match`, `matchhere` and `matchstar`, and the regular expressions that they decide.
A string is the list of the bytes before its NUL, and a pointer into it is what is left of the list.
-/
namespace Osce.Grep

mutual

/-- Search for re at the beginning of text. -/
def matchhere (re text : List UInt8) : Bool :=
  match re with
  | [] => true
  | c :: rest =>
    -- *
    if rest.head? = some 42 then matchstar c rest.tail text
    -- $
    else if c = 36 ∧ rest = [] then text.isEmpty
    else
      match text with
      | [] => false
      | t :: text => if c = 46 ∨ c = t then matchhere rest text else false
termination_by (re.length,text.length,0)
decreasing_by
  · simp only [List.length_tail,List.length_cons,Prod.lex_def]
    omega
  · simp [Prod.lex_def]

/-- Search for c*re at the beginning of text. -/
def matchstar (c : UInt8) (re text : List UInt8) : Bool :=
  -- a * matches zero or more instances
  if matchhere re text then true
  else
    match text with
    | [] => false
    | t :: text => if t = c ∨ c = 46 then matchstar c re text else false
termination_by (re.length,text.length,1)

end

/-- The loop of `match`, which must look at the empty string. -/
def match_loop (re : List UInt8) : List UInt8 → Bool
  | [] => matchhere re []
  | t :: text => if matchhere re (t :: text) then true else match_loop re text

def match_ (re text : List UInt8) : Bool :=
  match re with
  -- ^
  | 94 :: re => matchhere re text
  | re => match_loop re text

inductive Item where
  /-- A character before `*`. -/
  | repeats (c : UInt8)
  | ends
  | any
  | char (c : UInt8)
  deriving DecidableEq

def Allows (c t : UInt8) : Prop := c = 46 ∨ t = c

def items : List UInt8 → List Item
  | [] => []
  | c :: 42 :: rest => .repeats c :: items rest
  | [36] => [.ends]
  | 46 :: rest => .any :: items rest
  | c :: rest => .char c :: items rest

inductive Matches : List Item → List UInt8 → Prop where
  | nil (text : List UInt8) : Matches [] text
  | repeats {c : UInt8} {run text : List UInt8} {rest : List Item} (same : ∀ t ∈ run, Allows c t) (after : Matches rest text) :
      Matches (.repeats c :: rest) (run ++ text)
  | ends {rest : List Item} (after : Matches rest []) : Matches (.ends :: rest) []
  | any {t : UInt8} {text : List UInt8} {rest : List Item} (after : Matches rest text) : Matches (.any :: rest) (t :: text)
  | char {c : UInt8} {text : List UInt8} {rest : List Item} (after : Matches rest text) : Matches (.char c :: rest) (c :: text)

/-- The text contains a match: at its beginning after `^`, and anywhere otherwise. -/
def Contains (re text : List UInt8) : Prop :=
  match re with
  | 94 :: re => Matches (items re) text
  | re => ∃ before rest, text = before ++ rest ∧ Matches (items re) rest

section
variable {c t : UInt8} {text : List UInt8} {rest : List Item}

theorem matches_repeats : Matches (.repeats c :: rest) text ↔ ∃ run after, text = run ++ after ∧ (∀ t ∈ run, Allows c t) ∧ Matches rest after := by
  constructor
  · intro found
    cases found with
    | repeats same after => exact ⟨_,_,rfl,same,after⟩
  · rintro ⟨run,after,rfl,same,found⟩
    exact .repeats same found

theorem matches_repeats_cons : Matches (.repeats c :: rest) (t :: text) ↔
    Matches rest (t :: text) ∨ Allows c t ∧ Matches (.repeats c :: rest) text := by
  rw [matches_repeats,matches_repeats]
  constructor
  · rintro ⟨run,after,split,same,found⟩
    cases run with
    | nil =>
      left
      rw [List.nil_append] at split
      rwa [split]
    | cons first run =>
      right
      obtain ⟨rfl,rfl⟩ := List.cons.inj split
      exact ⟨same t (by simp),run,after,rfl,fun u inRun => same u (by simp [inRun]),found⟩
  · rintro (found | ⟨allowed,run,after,rfl,same,found⟩)
    · exact ⟨[],_,rfl,by simp,found⟩
    · refine ⟨t :: run,after,rfl,fun u inRun => ?_,found⟩
      rcases List.mem_cons.mp inRun with rfl | later
      · exact allowed
      · exact same u later

theorem matches_repeats_nil : Matches (.repeats c :: rest) [] ↔ Matches rest [] := by
  rw [matches_repeats]
  constructor
  · rintro ⟨run,after,split,-,found⟩
    obtain ⟨-,rfl⟩ := List.append_eq_nil_iff.mp split.symm
    exact found
  · intro found
    exact ⟨[],[],rfl,by simp,found⟩

theorem matches_ends : Matches [.ends] text ↔ text = [] := by
  constructor
  · intro found
    cases found with
    | ends after => rfl
  · rintro rfl
    exact .ends (.nil [])

theorem matches_one_nil : ¬Matches (.any :: rest) [] ∧ ¬Matches (.char c :: rest) [] := by
  constructor
  · intro found
    cases found
  · intro found
    cases found

theorem matches_any : Matches (.any :: rest) (t :: text) ↔ Matches rest text := by
  constructor
  · intro found
    cases found with
    | any after => exact after
  · exact .any

theorem matches_char : Matches (.char c :: rest) (t :: text) ↔ c = t ∧ Matches rest text := by
  constructor
  · intro found
    cases found with
    | char after => exact ⟨rfl,after⟩
  · rintro ⟨rfl,after⟩
    exact .char after

end

section
variable {c : UInt8} {re rest text : List UInt8}

theorem items_cons (single : rest.head? ≠ some 42) (more : ¬(c = 36 ∧ rest = [])) :
    items (c :: rest) = (if c = 46 then .any else .char c) :: items rest := by
  rw [items.eq_def]
  split
  · contradiction
  · rename_i same
    obtain ⟨-,rfl⟩ := List.cons.inj same
    exact absurd rfl single
  · rename_i same
    obtain ⟨rfl,rfl⟩ := List.cons.inj same
    exact absurd ⟨rfl,rfl⟩ more
  · rename_i same
    obtain ⟨rfl,rfl⟩ := List.cons.inj same
    simp
  · rename_i notAny same
    obtain ⟨rfl,rfl⟩ := List.cons.inj same
    rw [if_neg]
    rintro rfl
    exact notAny rfl

/-- `matchstar` looks for the rest after each beginning of the text that may be repeated. -/
theorem matchstar_iff (here : ∀ text, matchhere re text = true ↔ Matches (items re) text) (c : UInt8) (text : List UInt8) :
    matchstar c re text = true ↔ Matches (.repeats c :: items re) text := by
  induction text with
  | nil =>
    rw [matchstar,matches_repeats_nil,← here]
    simp
  | cons t text ih =>
    rw [matchstar,matches_repeats_cons,← here,← ih,Allows]
    by_cases found : matchhere re (t :: text) = true
    · simp [found]
    · simp [found,or_comm]

theorem matches_one {t : UInt8} {more : List Item} :
    Matches ((if c = 46 then .any else .char c) :: more) (t :: text) ↔ (c = 46 ∨ c = t) ∧ Matches more text := by
  by_cases any : c = 46
  · simp [any,matches_any]
  · simp [any,matches_char]

theorem matches_one_empty {more : List Item} : ¬Matches ((if c = 46 then .any else .char c) :: more) [] := by
  by_cases any : c = 46
  · rw [if_pos any]
    exact (matches_one_nil (c := c)).1
  · rw [if_neg any]
    exact matches_one_nil.2

/-- `matchhere` decides whether the pattern matches at the beginning. -/
theorem matchhere_iff (re text : List UInt8) : matchhere re text = true ↔ Matches (items re) text := by
  -- a repetition is followed by a pattern that is shorter by two
  induction size : re.length using Nat.strongRecOn generalizing re text with
  | ind n ih =>
    cases re with
    | nil =>
      rw [matchhere]
      exact ⟨fun _ => .nil text,fun _ => rfl⟩
    | cons c rest =>
      rw [List.length_cons] at size
      rw [matchhere.eq_def]
      dsimp only
      by_cases star : rest.head? = some 42
      · obtain ⟨after,rfl⟩ := List.head?_eq_some_iff.mp star
        rw [List.length_cons] at size
        rw [if_pos star,items]
        exact matchstar_iff (fun text => ih _ (by omega) after text rfl) c text
      by_cases dollar : c = 36 ∧ rest = []
      · obtain ⟨rfl,rfl⟩ := dollar
        rw [if_neg star,if_pos ⟨rfl,rfl⟩]
        show _ ↔ Matches [.ends] text
        rw [matches_ends,List.isEmpty_iff]
      rw [if_neg star,if_neg dollar,items_cons star dollar]
      cases text with
      | nil => simp [matches_one_empty]
      | cons t text =>
        rw [matches_one,← ih _ (by omega) rest text rfl]
        simp

theorem match_loop_iff (re text : List UInt8) :
    match_loop re text = true ↔ ∃ before rest, text = before ++ rest ∧ Matches (items re) rest := by
  induction text with
  | nil =>
    rw [match_loop,matchhere_iff]
    constructor
    · intro found
      exact ⟨[],[],rfl,found⟩
    · rintro ⟨before,rest,split,found⟩
      obtain ⟨-,rfl⟩ := List.append_eq_nil_iff.mp split.symm
      exact found
  | cons t text ih =>
    rw [match_loop]
    constructor
    · intro found
      split at found
      · rename_i here
        exact ⟨[],t :: text,rfl,(matchhere_iff ..).mp here⟩
      · obtain ⟨before,rest,split,later⟩ := ih.mp found
        exact ⟨t :: before,rest,by rw [split,List.cons_append],later⟩
    · rintro ⟨before,rest,split,found⟩
      cases before with
      | nil =>
        rw [List.nil_append] at split
        rw [if_pos (by rw [matchhere_iff,split]; exact found)]
      | cons first before =>
        obtain ⟨-,rfl⟩ := List.cons.inj split
        rw [ih.mpr ⟨before,rest,rfl,found⟩]
        simp

end

/-- `match` returns for every pattern and text, and it returns 1 exactly if the text contains a match. -/
theorem match_decides (re text : List UInt8) : match_ re text = true ↔ Contains re text := by
  unfold match_ Contains
  split
  · exact matchhere_iff ..
  · exact match_loop_iff ..

end Osce.Grep
