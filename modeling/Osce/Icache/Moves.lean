import Osce.Icache.Code

/-!
The steps that processes may take in the inode cache, one constructor for each way they go.
-/
namespace Osce.Icache
open Osce.Lib Osce.Layout
set_option linter.unusedSectionVars false

variable {P : Type} [DecidableEq P] {ninodes : Nat → Nat}

section
variable {icache : Entry → Inode} {k : Key} {e : Entry}

theorem cached_some (found : cached icache k = some e) : (icache e).ref > 0 ∧ (icache e).key = k := by
  simpa using List.find?_some found

theorem cached_none (absent : cached icache k = none) (e : Entry) (used : (icache e).ref > 0) : (icache e).key ≠ k := by
  have no := List.find?_eq_none.mp absent e (List.mem_finRange e)
  simpa [used] using no

theorem empty_some (found : empty icache = some e) : (icache e).ref = 0 := by
  simpa using List.find?_some found

end

inductive Moves (s : State P) : Action P → State P → Prop where
  -- references
  | shares {a : Action P} {p : P} {e : Entry} (here : (s.pc p).uses = none) (used : (s.icache e).ref ≠ 0) :
      Moves s a (((s.goto p .idle).setInode e { s.icache e with ref := (s.icache e).ref + 1 }).obtains e)
  | recycles {a : Action P} {p : P} {e : Entry} {k : Key} (here : (s.pc p).uses = none) (unused : (s.icache e).ref = 0)
      (absent : ∀ e, (s.icache e).ref > 0 → (s.icache e).key ≠ k) :
      Moves s a (((s.goto p .idle).setInode e { s.icache e with key := k, ref := 1, busy := false, valid := false }).obtains e)
  | drops {p : P} {e : Entry} {t : Nat} (here : s.pc p = .idle) (held : t ∈ s.held e) (unused : ∀ q, ¬ s.Uses q e t) :
      Moves s (.iput p e t) ((s.setInode e { s.icache e with ref := (s.icache e).ref - 1 }).drop e t)
  -- `ilock` and `iunlock`
  | waits {p : P} {e : Entry} {t : Nat} (here : s.pc p = .idle) (held : t ∈ s.held e) (kept : ∀ q, (s.pc q).drops ≠ some (e,t)) :
      Moves s (.ilock p e t) (s.goto p (.ilock e t))
  | locks {p : P} {e : Entry} {t : Nat} (here : s.pc p = .ilock e t) (free : (s.icache e).busy = false) :
      Moves s (.turn p) ((s.setInode e { s.icache e with busy := true }).goto p (.load e t))
  | enters {p : P} {e : Entry} {t : Nat} (here : s.pc p = .load e t) (valid : (s.icache e).valid = true) :
      Moves s (.turn p) (s.returns p e t)
  | reads {p : P} {e : Entry} {t : Nat} (here : s.pc p = .load e t) (stale : (s.icache e).valid = false) :
      Moves s (.turn p) ((s.setInode e { s.icache e with din := s.disk (s.icache e).key }).goto p (.loaded e t))
  | loads {p : P} {e : Entry} {t : Nat} (here : s.pc p = .loaded e t) (typed : (s.icache e).din.type ≠ 0) :
      Moves s (.turn p) ((s.setInode e { s.icache e with valid := true }).returns p e t)
  | unlocks {p : P} {e : Entry} (here : s.pc p = .idle) (mine : s.locked p e ≠ none) (clean : s.dirty p e = false) :
      Moves s (.iunlock p e) ((s.setInode e { s.icache e with busy := false }).setLocked p e none)
  -- work on a locked inode
  | updates {p : P} {e : Entry} (here : s.pc p = .idle) (mine : s.locked p e ≠ none) :
      Moves s (.iupdate p e) ((s.write e).setDirty p e false)
  | modifies {p : P} {e : Entry} {f : Dinode → Dinode} (here : s.pc p = .idle) (mine : s.locked p e ≠ none)
      (typed : (f (s.icache e).din).type = (s.icache e).din.type) :
      Moves s (.modify p e f) ((s.setInode e { s.icache e with din := f (s.icache e).din }).setDirty p e true)
  -- an inode without links is freed
  | frees {p : P} {e : Entry} {t : Nat} (here : s.pc p = .idle) (held : t ∈ s.held e) (unused : ∀ q, ¬ s.Uses q e t)
      (last : (s.icache e).ref = 1) (valid : (s.icache e).valid = true) (unlinked : (s.icache e).din.nlink = 0) :
      Moves s (.iput p e t) ((s.setInode e { s.icache e with busy := true }).goto p (.iput e t .trunc))
  | clears {p : P} {e : Entry} {t : Nat} {stage stage' : Stage} {d : Dinode} (here : s.pc p = .iput e t stage) :
      Moves s (.turn p) ((s.setInode e { s.icache e with din := d }).goto p (.iput e t stage'))
  | writes {p : P} {e : Entry} {t : Nat} {stage stage' : Stage} (here : s.pc p = .iput e t stage) :
      Moves s (.turn p) ((s.write e).goto p (.iput e t stage'))
  | ends {p : P} {e : Entry} {t : Nat} {stage : Stage} (here : s.pc p = .iput e t stage) :
      Moves s (.turn p) (((s.setInode e { s.icache e with busy := false, valid := false, ref := (s.icache e).ref - 1 }).drop e t).goto p .idle)
  -- `ialloc`
  | scans {a : Action P} {p : P} {pc : Pc} (here : (s.pc p).uses = none) (still : pc.uses = none) : Moves s a (s.goto p pc)
  | allocates {p : P} {k : Key} {d : Dinode} (here : (s.pc p).uses = none) (free : (s.disk k).type = 0) :
      Moves s (.turn p) ({ s with disk := Function.update s.disk k d }.goto p (.allocated k))

section
variable {s s' : State P} {a : Action P} {p : P} {e : Entry} {t : Nat}

theorem goto_self (same : s.pc p = pc) : s.goto p pc = s := by
  subst same
  simp [State.goto]

theorem moves_of_get {k : Key} (here : (s.pc p).uses = none) (taken : (s.goto p .idle).get k = some (.ok s')) : Moves s a s' := by
  unfold State.get at taken
  split at taken
  · rename_i e found
    cases taken
    have used : (s.icache e).ref > 0 := (cached_some found).1
    exact .shares here (by omega)
  · rename_i absent
    split at taken
    · rename_i e found
      cases taken
      exact .recycles here (empty_some found) (cached_none absent)
    · cases taken

theorem moves_of_turn (taken : s.turn ninodes p = some (.ok s')) : Moves s (.turn p) s' := by
  unfold State.turn at taken
  split at taken
  case h_1 => cases taken
  case h_2 e t here =>
    split at taken
    · cases taken
    · rename_i free
      cases taken
      exact .locks here (by simpa using free)
  case h_3 e t here =>
    split at taken
    · cases taken
      exact .enters here ‹_›
    · rename_i stale
      cases taken
      exact .reads here (by simpa using stale)
  case h_4 e t here =>
    split at taken
    · cases taken
    · cases taken
      exact .loads here ‹_›
  case h_5 e t here =>
    cases taken
    exact .clears here
  case h_6 e t here =>
    cases taken
    exact .writes here
  case h_7 e t here =>
    cases taken
    exact .clears here
  case h_8 e t here =>
    cases taken
    exact .writes here
  case h_9 e t here =>
    cases taken
    exact .ends here
  case h_10 dev inum type here =>
    split at taken
    · split at taken
      · cases taken
        exact .allocates (by rw [here]; rfl) ‹_›
      · cases taken
        exact .scans (by rw [here]; rfl) rfl
    · cases taken
  case h_11 k here => exact moves_of_get (by rw [here]; rfl) taken

theorem ref_pos (count : (s.icache e).ref = (s.held e).card) (held : t ∈ s.held e) : (s.icache e).ref ≥ 1 := by
  have := Finset.card_pos.mpr ⟨t,held⟩
  omega

theorem moves_of_step (permits : s.Permits a) (count : ∀ e, (s.icache e).ref = (s.held e).card)
    (taken : step ninodes s a = some (.ok s')) : Moves s a s' := by
  cases a with
  | turn p => exact moves_of_turn taken
  | iget p k =>
    simp only [step] at taken
    split at taken
    · rename_i here
      rw [← goto_self here] at taken
      exact moves_of_get (by rw [here]; rfl) taken
    · cases taken
  | idup p e t =>
    simp only [step] at taken
    split at taken
    · rename_i here
      cases taken
      have used := ref_pos (count e) permits.1
      have shared : Moves s (.idup p e t) (((s.goto p .idle).setInode e { s.icache e with ref := (s.icache e).ref + 1 }).obtains e) :=
        .shares (by rw [here]; rfl) (by omega)
      rwa [goto_self here] at shared
    · cases taken
  | ilock p e t =>
    simp only [step] at taken
    split at taken
    · rename_i here
      split at taken
      · cases taken
      · cases taken
        exact .waits here permits.1 permits.2
    · cases taken
  | iunlock p e =>
    simp only [step] at taken
    split at taken
    · rename_i here
      split at taken
      · cases taken
      · cases taken
        exact .unlocks here permits.1 permits.2
    · cases taken
  | iput p e t =>
    simp only [step] at taken
    split at taken
    · rename_i here
      split at taken
      · rename_i last
        split at taken
        · cases taken
        · cases taken
          exact .frees here permits.1 permits.2 last.1 last.2.1 last.2.2
      · cases taken
        exact .drops here permits.1 permits.2
    · cases taken
  | ialloc p dev type =>
    simp only [step] at taken
    split at taken
    · rename_i here
      cases taken
      exact .scans (by rw [here]; rfl) rfl
    · cases taken
  | iupdate p e =>
    simp only [step] at taken
    split at taken
    · cases taken
      exact .updates ‹_› permits
    · cases taken
  | modify p e f =>
    simp only [step] at taken
    split at taken
    · cases taken
      exact .modifies ‹_› permits.1 permits.2
    · cases taken

end

end Osce.Icache
