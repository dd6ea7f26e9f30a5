import Mathlib

/-!
The command parser of the shell: `gettoken` and `peek` over a line in memory, the parsing functions and `nulterminate`.
A line is the list of the bytes before its NUL, and a pointer into it is a position. A pointer that has passed the NUL may not
be followed. The parsing functions call each other as deep as the line is nested, so each call has a number of turns left.
-/
namespace Osce.Sh

def MAXARGS : Nat := 10
def O_RDONLY : Nat := 0x000
def O_WRONLY : Nat := 0x001
def O_CREATE : Nat := 0x200

/-- ` \t\r\n\v` -/
def whitespace : List UInt8 := [32,9,13,10,11]
/-- `<|>&;()` -/
def symbols : List UInt8 := [60,124,62,38,59,40,41]

def strchr (set : List UInt8) (c : UInt8) : Bool := set.contains c

def isBlank (c : UInt8) : Bool := strchr whitespace c
def inWord (c : UInt8) : Bool := !strchr whitespace c && !strchr symbols c

/-- Why the parser does not return: `panic`, a read past the end of the line, or no turn left. -/
inductive Err where
  | panic (message : String)
  | fault
  | turns
  deriving DecidableEq

@[simp] theorem ok_bind {α β : Type} (a : α) (f : α → Except Err β) : (Except.ok a >>= f) = f a := rfl

@[simp] theorem error_bind {α β : Type} (e : Err) (f : α → Except Err β) : ((Except.error e : Except Err α) >>= f) = .error e := rfl

@[simp] theorem pure_ok {α : Type} (a : α) : (pure a : Except Err α) = .ok a := rfl

/-- `*p` -/
def load (s : List UInt8) (p : Nat) : Except Err UInt8 := if p ≤ s.length then .ok (s.getD p 0) else .error .fault

/-- The loop `while(s < es && test(*s)) s++` over the bytes from s on. -/
def skip_from (test : UInt8 → Bool) : List UInt8 → Nat → Nat
  | [], p => p
  | c :: rest, p => if test c then skip_from test rest (p + 1) else p

def skip (s : List UInt8) (test : UInt8 → Bool) (p : Nat) : Nat := skip_from test (s.drop p) p

/-- What `gettoken` returns and stores: the kind of the token, its begin and its end, and where the next one begins. -/
structure Token where
  ret : UInt8
  q : Nat
  eq : Nat
  ps : Nat

/-- The `switch` of `gettoken`: the kind of the token that begins at q, and its end. -/
def tokenAt (s : List UInt8) (q : Nat) : Except Err (UInt8 × Nat) := do
  let c ← load s q
  if c = 0 then pure (0,q)
  -- | ( ) ; & <
  else if c = 124 ∨ c = 40 ∨ c = 41 ∨ c = 59 ∨ c = 38 ∨ c = 60 then pure (c,q + 1)
  -- > and >>, for which it returns +
  else if c = 62 then do
    let d ← load s (q + 1)
    if d = 62 then pure (43,q + 2) else pure (c,q + 1)
  -- a word, for which it returns a
  else pure (97,skip s inWord q)

def gettoken (s : List UInt8) (ps : Nat) : Except Err Token := do
  let q := skip s isBlank ps
  let (ret,eq) ← tokenAt s q
  pure ⟨ret,q,eq,skip s isBlank eq⟩

/-- Whether the next byte that is not blank is one of `toks`, and where it is. -/
def peek (s : List UInt8) (ps : Nat) (toks : List UInt8) : Except Err (Bool × Nat) := do
  let p := skip s isBlank ps
  let c ← load s p
  pure (decide (c ≠ 0) && strchr toks c,p)

structure Redir where
  file : Nat
  efile : Nat
  mode : Nat
  fd : Nat
  deriving DecidableEq

/-- The tree of commands. The words of a command are given by where they begin and end. -/
inductive Cmd where
  | exec (argv : List (Nat × Nat))
  | redir (cmd : Cmd) (r : Redir)
  | pipe (left right : Cmd)
  | list (left right : Cmd)
  | back (cmd : Cmd)
  deriving DecidableEq

/-- `redircmd` for each redirection, the last one outermost. -/
def redircmds (cmd : Cmd) (rs : List Redir) : Cmd := rs.foldl Cmd.redir cmd

def redirOf (tok : UInt8) (q eq : Nat) : List Redir :=
  if tok = 60 then [⟨q,eq,O_RDONLY,0⟩]
  else if tok = 62 then [⟨q,eq,O_WRONLY + O_CREATE,1⟩]
  else if tok = 43 then [⟨q,eq,O_WRONLY + O_CREATE,1⟩]
  else []

/-- The redirections that `parseredirs` puts around its command. -/
def parseredirs (s : List UInt8) : Nat → Nat → Except Err (List Redir × Nat)
  | 0, _ => .error .turns
  | turns + 1, ps => do
    let (more,ps) ← peek s ps [60,62]
    if more then do
      let tok ← gettoken s ps
      let file ← gettoken s tok.ps
      if file.ret ≠ 97 then .error (.panic "missing file for redirection")
      else do
        let (rest,ps) ← parseredirs s turns file.ps
        pure (redirOf tok.ret file.q file.eq ++ rest,ps)
    else pure ([],ps)

/-- The loop of `parseexec`, with the words and the redirections that it has found. -/
def parseargs (s : List UInt8) : Nat → List (Nat × Nat) → List Redir → Nat → Except Err (Cmd × Nat)
  | 0, _, _, _ => .error .turns
  | turns + 1, argv, redirs, ps => do
    let (stop,ps) ← peek s ps [124,41,38,59]
    if stop then pure (redircmds (.exec argv) redirs,ps)
    else do
      let tok ← gettoken s ps
      if tok.ret = 0 then pure (redircmds (.exec argv) redirs,tok.ps)
      else if tok.ret ≠ 97 then .error (.panic "syntax")
      else if argv.length + 1 ≥ MAXARGS then .error (.panic "too many args")
      else do
        let (more,ps) ← parseredirs s turns tok.ps
        parseargs s turns (argv ++ [(tok.q,tok.eq)]) (redirs ++ more) ps

def parsebacks (s : List UInt8) : Nat → Cmd → Nat → Except Err (Cmd × Nat)
  | 0, _, _ => .error .turns
  | turns + 1, cmd, ps => do
    let (more,ps) ← peek s ps [38]
    if more then do
      let tok ← gettoken s ps
      parsebacks s turns (.back cmd) tok.ps
    else pure (cmd,ps)

mutual

def parseline (s : List UInt8) : Nat → Nat → Except Err (Cmd × Nat)
  | 0, _ => .error .turns
  | turns + 1, ps => do
    let (cmd,ps) ← parsepipe s turns ps
    let (cmd,ps) ← parsebacks s turns cmd ps
    let (more,ps) ← peek s ps [59]
    if more then do
      let tok ← gettoken s ps
      let (right,ps) ← parseline s turns tok.ps
      pure (.list cmd right,ps)
    else pure (cmd,ps)
termination_by structural turns => turns

def parsepipe (s : List UInt8) : Nat → Nat → Except Err (Cmd × Nat)
  | 0, _ => .error .turns
  | turns + 1, ps => do
    let (cmd,ps) ← parseexec s turns ps
    let (more,ps) ← peek s ps [124]
    if more then do
      let tok ← gettoken s ps
      let (right,ps) ← parsepipe s turns tok.ps
      pure (.pipe cmd right,ps)
    else pure (cmd,ps)
termination_by structural turns => turns

def parseexec (s : List UInt8) : Nat → Nat → Except Err (Cmd × Nat)
  | 0, _ => .error .turns
  | turns + 1, ps => do
    let (block,ps) ← peek s ps [40]
    if block then parseblock s turns ps
    else do
      let (redirs,ps) ← parseredirs s turns ps
      parseargs s turns [] redirs ps
termination_by structural turns => turns

def parseblock (s : List UInt8) : Nat → Nat → Except Err (Cmd × Nat)
  | 0, _ => .error .turns
  | turns + 1, ps => do
    let (opened,ps) ← peek s ps [40]
    if opened then do
      let tok ← gettoken s ps
      let (cmd,ps) ← parseline s turns tok.ps
      let (closed,ps) ← peek s ps [41]
      if closed then do
        let tok ← gettoken s ps
        let (redirs,ps) ← parseredirs s turns tok.ps
        pure (redircmds cmd redirs,ps)
      else .error (.panic "syntax - missing )")
    else .error (.panic "parseblock")
termination_by structural turns => turns

end

/-- NUL-terminate all the counted strings. -/
def nulterminate : Cmd → List UInt8 → List UInt8
  | .exec argv, mem => argv.foldl (fun mem word => mem.set word.2 0) mem
  | .redir cmd r, mem => (nulterminate cmd mem).set r.efile 0
  | .pipe left right, mem => nulterminate right (nulterminate left mem)
  | .list left right, mem => nulterminate right (nulterminate left mem)
  | .back cmd, mem => nulterminate cmd mem

/-- As many turns as a line of this length can need. -/
def turnsFor (s : List UInt8) : Nat := 4 * s.length + 4

/-- `parsecmd`: the tree, and the line with its NUL as it is then. -/
def parsecmd (s : List UInt8) : Except Err (Cmd × List UInt8) := do
  let (cmd,ps) ← parseline s (turnsFor s) 0
  let (_,ps) ← peek s ps []
  if ps ≠ s.length then .error (.panic "syntax")
  else pure (cmd,nulterminate cmd (s ++ [0]))

end Osce.Sh
