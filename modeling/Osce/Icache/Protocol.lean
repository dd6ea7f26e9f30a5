import Osce.Icache.Locks

/-!
What the inode cache keeps under any interleaving: an inode has one entry, and the fields
of an inode that is not being changed are those on disk.
-/
namespace Osce.Icache
open Osce.Lib Osce.Layout Function
set_option linter.unusedSectionVars false

variable {P : Type} [DecidableEq P]

def Unique (icache : Entry → Inode) : Prop :=
  ∀ e e', (icache e).ref > 0 → (icache e').ref > 0 → (icache e).key = (icache e').key → e = e'

/-- The fields of an inode that nobody has, or whose holder has not changed it, are those on
    disk, and its type is not 0. -/
structure Synced (s : State P) (e : Entry) : Prop where
  fresh : (s.icache e).ref > 0 → (s.icache e).valid = true → (s.icache e).busy = false →
    (s.icache e).din = s.disk (s.icache e).key ∧ (s.icache e).din.type ≠ 0
  locked : ∀ p, s.locked p e ≠ none → (s.icache e).valid = true ∧ (s.icache e).din.type ≠ 0 ∧
    (s.disk (s.icache e).key).type ≠ 0 ∧ (s.dirty p e = false → (s.icache e).din = s.disk (s.icache e).key)
  load : ∀ p t, s.pc p = .load e t → (s.icache e).valid = true →
    (s.icache e).din = s.disk (s.icache e).key ∧ (s.icache e).din.type ≠ 0
  loaded : ∀ p t, s.pc p = .loaded e t → (s.icache e).din.type ≠ 0 → (s.icache e).din = s.disk (s.icache e).key

section
variable {s s' : State P} {a : Action P} {p q : P} {e e' : Entry} {t t' : Nat} {pc : Pc} {icache : Entry → Inode} {ip : Inode}

theorem unique_update (unique : Unique icache) (key : ip.key = (icache e).key) (used : ip.ref > 0 → (icache e).ref > 0) :
    Unique (update icache e ip) := by
  have same (x : Entry) : (update icache e ip x).key = (icache x).key ∧
      ((update icache e ip x).ref > 0 → (icache x).ref > 0) := by
    by_cases here : x = e
    · rw [here,update_self]
      exact ⟨key,used⟩
    · rw [update_of_ne here]
      exact ⟨rfl,id⟩
  intro x y first second keys
  rw [(same x).1,(same y).1] at keys
  exact unique x y ((same x).2 first) ((same y).2 second) keys

theorem unique_recycle (unique : Unique icache) (absent : ∀ x, (icache x).ref > 0 → (icache x).key ≠ ip.key) :
    Unique (update icache e ip) := by
  intro x y first second keys
  by_cases isX : x = e
  · by_cases isY : y = e
    · rw [isX,isY]
    · rw [isX,update_self,update_of_ne isY] at keys
      rw [update_of_ne isY] at second
      exact absurd keys.symm (absent y second)
  · rw [update_of_ne isX] at first keys
    by_cases isY : y = e
    · rw [isY,update_self] at keys
      exact absurd keys (absent x first)
    · rw [update_of_ne isY] at second keys
      exact unique x y first second keys

theorem unique_step (unique : Unique s.icache) (c : Counted s) (m : Moves s a s') : Unique s'.icache := by
  have whole (e : Entry) (used : (s.icache e).ref ≠ 0) : (s.icache e).ref > 0 := by
    have := c.count e
    omega
  cases m with
  | @shares _ p e here used => exact unique_update unique rfl fun _ => whole e used
  | recycles here unused absent => exact unique_recycle unique absent
  | @drops p e t here held unused => exact unique_update unique rfl fun more => by simp only at more; omega
  | waits here held kept => exact unique
  | locks here free => exact unique_update unique rfl id
  | enters here valid => exact unique
  | reads here stale => exact unique_update unique rfl id
  | loads here typed => exact unique_update unique rfl id
  | unlocks here mine clean => exact unique_update unique rfl id
  | updates here mine => exact unique
  | modifies here mine typed => exact unique_update unique rfl id
  | frees here held unused last valid unlinked => exact unique_update unique rfl id
  | clears here => exact unique_update unique rfl id
  | writes here => exact unique
  | ends here => exact unique_update unique rfl fun more => by simp only at more; omega
  | scans here still => exact unique
  | allocates here free => exact unique

theorem Synced.keep (y : Synced s e) (fields : (s'.icache e).key = (s.icache e).key ∧ (s'.icache e).valid = (s.icache e).valid ∧
      (s'.icache e).din = (s.icache e).din) (disk : s'.disk (s.icache e).key = s.disk (s.icache e).key)
    (fresh : (s'.icache e).ref > 0 → (s'.icache e).busy = false → (s.icache e).ref > 0 ∧ (s.icache e).busy = false)
    (locked : ∀ p, s'.locked p e ≠ none → s.locked p e ≠ none ∧ s'.dirty p e = s.dirty p e)
    (calls : ∀ p, (s'.pc p).has = some e → s'.pc p = s.pc p ∨ ∃ t stage, s'.pc p = .iput e t stage) : Synced s' e := by
  obtain ⟨key,valid,din⟩ := fields
  refine ⟨?_,?_,?_,?_⟩
  · intro used isValid free
    rw [key,din,disk]
    obtain ⟨before,wasFree⟩ := fresh used free
    exact y.fresh before (valid.symm.trans isValid) wasFree
  · intro p isLocked
    obtain ⟨was,dirty⟩ := locked p isLocked
    rw [key,din,disk,valid,dirty]
    exact y.locked p was
  · intro p t here isValid
    rw [key,din,disk]
    rcases calls p (by rw [here]; rfl) with same | ⟨_,_,puts⟩
    · exact y.load p t (same.symm.trans here) (valid.symm.trans isValid)
    · cases here.symm.trans puts
  · intro p t here typed
    rw [din] at typed
    rw [key,din,disk]
    rcases calls p (by rw [here]; rfl) with same | ⟨_,_,puts⟩
    · exact y.loaded p t (same.symm.trans here) typed
    · cases here.symm.trans puts

theorem Synced.nobody (nobody : ∀ q, ¬ s.Has q e) (fresh : (s.icache e).ref > 0 → (s.icache e).valid = true →
    (s.icache e).din = s.disk (s.icache e).key ∧ (s.icache e).din.type ≠ 0) : Synced s e := by
  refine ⟨fun used valid _ => fresh used valid,?_,?_,?_⟩
  · intro p locked
    exact absurd (.inl locked) (nobody p)
  · intro p t here
    exact absurd (.inr (by rw [here]; rfl)) (nobody p)
  · intro p t here
    exact absurd (.inr (by rw [here]; rfl)) (nobody p)

theorem Synced.stale (stale : (s.icache e).ref = 0 ∨ (s.icache e).valid = false) (nobody : ∀ q, ¬ s.Has q e) : Synced s e := by
  refine .nobody nobody fun used valid => ?_
  rcases stale with none | stale
  · omega
  · rw [stale] at valid
    cases valid

theorem Synced.inCall (x : Exclusive s') (has : (s'.pc p).has = some e)
    (load : ∀ t, s'.pc p = .load e t → (s'.icache e).valid = true →
      (s'.icache e).din = s'.disk (s'.icache e).key ∧ (s'.icache e).din.type ≠ 0)
    (loaded : ∀ t, s'.pc p = .loaded e t → (s'.icache e).din.type ≠ 0 → (s'.icache e).din = s'.disk (s'.icache e).key) :
    Synced s' e := by
  have alone {q : P} (theirs : s'.Has q e) : q = p := (x.busy e).alone (.inr has) theirs
  refine ⟨?_,?_,?_,?_⟩
  · intro _ _ free
    rw [(x.busy e).flag (.inr has)] at free
    cases free
  · intro q locked
    have same := alone (.inl locked)
    subst same
    exact absurd has (x.once q e locked)
  · intro q t here
    have same := alone (.inr (by rw [here]; rfl))
    subst same
    exact load t here
  · intro q t here
    have same := alone (.inr (by rw [here]; rfl))
    subst same
    exact loaded t here

theorem Synced.inIput (x : Exclusive s') {t : Nat} {stage : Stage} (here : s'.pc p = .iput e t stage) : Synced s' e := by
  refine .inCall x (p := p) (by rw [here]; rfl) (fun t' load => ?_) fun t' loaded => ?_
  · rw [here] at load
    cases load
  · rw [here] at loaded
    cases loaded

theorem Synced.owner (x : Exclusive s') (mine : s'.locked p e ≠ none)
    (holds : (s'.icache e).valid = true ∧ (s'.icache e).din.type ≠ 0 ∧ (s'.disk (s'.icache e).key).type ≠ 0 ∧
      (s'.dirty p e = false → (s'.icache e).din = s'.disk (s'.icache e).key)) : Synced s' e := by
  have alone {q : P} (theirs : s'.Has q e) : q = p := (x.busy e).alone (.inl mine) theirs
  have outside {q : P} (has : (s'.pc q).has = some e) : False := by
    have same := alone (.inr has)
    subst same
    exact x.once q e mine has
  refine ⟨?_,?_,fun q t here => (outside (by rw [here]; rfl)).elim,fun q t here => (outside (by rw [here]; rfl)).elim⟩
  · intro _ _ free
    rw [(x.busy e).flag (.inl mine)] at free
    cases free
  · intro q locked
    have same := alone (.inl locked)
    subst same
    exact holds

theorem Synced.elsewhere (y : Synced s e') (same : s'.icache e' = s.icache e')
    (disk : s'.disk (s.icache e').key = s.disk (s.icache e').key) (locked : ∀ q, s'.locked q e' = s.locked q e')
    (dirty : ∀ q, s'.dirty q e' = s.dirty q e') (calls : ∀ q, (s'.pc q).has = some e' → s'.pc q = s.pc q) : Synced s' e' := by
  refine y.keep ?_ disk ?_ ?_ fun q has => .inl (calls q has)
  · rw [same]
    exact ⟨rfl,rfl,rfl⟩
  · rw [same]
    exact fun used free => ⟨used,free⟩
  · intro q isLocked
    rw [locked] at isLocked
    exact ⟨isLocked,dirty q⟩

theorem calls_update (pc : Pc) (moves : s'.pc = update s.pc p pc) (not : pc.has ≠ some e) (q : P)
    (has : (s'.pc q).has = some e) : s'.pc q = s.pc q := by
  rw [moves] at has ⊢
  by_cases isP : q = p
  · rw [isP,update_self] at has
    exact absurd has not
  · rw [update_of_ne isP]

theorem flag_other {V : Type} {m : P → Entry → V} {v : V} (apart : e' ≠ e) (q : P) :
    update m p (update (m p) e v) q e' = m q e' := by
  by_cases isP : q = p
  · rw [isP,update_self,update_of_ne apart]
  · rw [update_of_ne isP]

/-- The inode is written to disk by a process that has it, so no other entry in use is for it. -/
theorem Synced.written (y : Synced s e') (unique : Unique s.icache) (c' : Counted s') (apart : e' ≠ e)
    (used : (s.icache e).ref > 0) (icache : s'.icache = s.icache)
    (disk : s'.disk = update s.disk (s.icache e).key (s.icache e).din)
    (locked : ∀ q, s'.locked q e' = s.locked q e') (dirty : ∀ q, s'.dirty q e' = s.dirty q e')
    (calls : ∀ q, (s'.pc q).has = some e' → s'.pc q = s.pc q) : Synced s' e' := by
  by_cases none : (s'.icache e').ref = 0
  · exact .stale (.inl none) (c'.unreferenced none)
  · have inUse : (s.icache e').ref > 0 := by
      have := c'.count e'
      rw [icache] at this none
      omega
    have different : (s.icache e').key ≠ (s.icache e).key := fun same => apart (unique e' e inUse used same)
    refine y.elsewhere (by rw [icache]) ?_ locked dirty calls
    rw [disk,update_of_ne different]

/-- Every way to have read an inode needs a type on disk, so one that is handed out by
    `ialloc` has not been read. -/
theorem Synced.allocates (y : Synced s e) (free : (s.disk (s.icache e).key).type = 0) (icache : s'.icache e = s.icache e)
    (locked : s'.locked = s.locked) (calls : ∀ q, (s'.pc q).has = some e → s'.pc q = s.pc q) : Synced s' e := by
  have typed (current : (s.icache e).din = s.disk (s.icache e).key) : (s.icache e).din.type = 0 := by rwa [current]
  refine ⟨?_,?_,?_,?_⟩ <;> rw [icache]
  · intro used valid flag
    obtain ⟨current,isTyped⟩ := y.fresh used valid flag
    exact absurd (typed current) isTyped
  · intro q isLocked
    rw [locked] at isLocked
    exact absurd free (y.locked q isLocked).2.2.1
  · intro q t load valid
    obtain ⟨current,isTyped⟩ := y.load q t ((calls q (by rw [load]; rfl)).symm.trans load) valid
    exact absurd (typed current) isTyped
  · intro q t loaded isTyped
    exact absurd (typed (y.loaded q t ((calls q (by rw [loaded]; rfl)).symm.trans loaded) isTyped)) isTyped

theorem Counted.used_of_has (c : Counted s) (has : s.Has p e) : (s.icache e).ref > 0 := by
  obtain ⟨t,uses⟩ := has.uses
  have := ref_pos (c.count e) (c.used p e t uses)
  omega

theorem synced_step (y : ∀ e, Synced s e) (unique : Unique s.icache) (c : Counted s) (x : Exclusive s) (m : Moves s a s') (e' : Entry) :
    Synced s' e' := by
  have c' := c.step m
  have x' := x.step c m
  cases m with
  | @shares _ p e here used =>
    by_cases same : e' = e
    · subst same
      refine (y e').keep ?_ rfl ?_ (fun q locked => ⟨locked,rfl⟩) fun q has => .inl (calls_update .idle rfl (by simp [Pc.has]) q has)
      · simp [State.obtains,State.setInode]
      · intro _ free
        have := c.count e'
        refine ⟨by omega,?_⟩
        simpa [State.obtains,State.setInode] using free
    · exact (y e').elsewhere (update_of_ne same _ _) rfl (fun _ => rfl) (fun _ => rfl) (calls_update .idle rfl (by simp [Pc.has]))
  | @recycles _ p e k here unused absent =>
    by_cases same : e' = e
    · subst same
      have left : Counted (s.goto p .idle) := c.goes (fun _ => rfl) rfl rfl rfl rfl (.inr rfl) (.inr rfl)
      exact .stale (.inr (by simp [State.obtains,State.setInode])) (left.unreferenced unused)
    · exact (y e').elsewhere (update_of_ne same _ _) rfl (fun _ => rfl) (fun _ => rfl) (calls_update .idle rfl (by simp [Pc.has]))
  | @drops p e t here held unused =>
    by_cases same : e' = e
    · subst same
      refine (y e').keep ?_ rfl ?_ (fun q locked => ⟨locked,rfl⟩) fun q has => .inl rfl
      · simp [State.drop,State.setInode]
      · simp only [State.drop,State.setInode,update_self]
        exact fun used free => ⟨by omega,free⟩
    · exact (y e').elsewhere (update_of_ne same _ _) rfl (fun _ => rfl) (fun _ => rfl) fun _ _ => rfl
  | @waits p e t here held kept =>
    exact (y e').keep ⟨rfl,rfl,rfl⟩ rfl (fun used free => ⟨used,free⟩) (fun q locked => ⟨locked,rfl⟩)
      fun q has => .inl (calls_update (.ilock e t) rfl (by simp [Pc.has]) q has)
  | @locks p e t here free =>
    by_cases same : e' = e
    · subst same
      have used := ref_pos (c.count e') (c.used p e' t (.inr (by rw [here]; rfl)))
      refine .inCall x' (p := p) (by simp [State.goto,Pc.has]) ?_ ?_
      · intro t' _ valid
        simp only [State.goto,State.setInode,update_self] at valid ⊢
        exact (y e').fresh (by omega) valid free
      · intro t' loaded
        simp [State.goto] at loaded
    · have other : (Pc.load e t).has ≠ some e' := fun h => same (Option.some.inj h).symm
      exact (y e').elsewhere (update_of_ne same _ _) rfl (fun _ => rfl) (fun _ => rfl) (calls_update (.load e t) rfl other)
  | @enters p e t here valid =>
    by_cases same : e' = e
    · subst same
      obtain ⟨current,typed⟩ := (y e').load p t here valid
      refine .owner x' (p := p) (by simp [State.returns,State.goto,State.setDirty,State.setLocked]) ⟨valid,typed,?_,fun _ => current⟩
      show (s.disk (s.icache e').key).type ≠ 0
      rwa [← current]
    · exact (y e').elsewhere rfl rfl (flag_other same) (flag_other same)
        (calls_update .idle rfl (by simp [Pc.has]))
  | @reads p e t here stale =>
    by_cases same : e' = e
    · subst same
      refine .inCall x' (p := p) (by simp [State.goto,Pc.has]) ?_ ?_
      · intro t' load
        simp [State.goto] at load
      · intro t' _ _
        simp [State.goto,State.setInode]
    · have other : (Pc.loaded e t).has ≠ some e' := fun h => same (Option.some.inj h).symm
      exact (y e').elsewhere (update_of_ne same _ _) rfl (fun _ => rfl) (fun _ => rfl) (calls_update (.loaded e t) rfl other)
  | @loads p e t here typed =>
    by_cases same : e' = e
    · subst same
      have current := (y e').loaded p t here typed
      refine .owner x' (p := p) (by simp [State.returns,State.goto,State.setDirty,State.setLocked]) ?_
      simp only [State.returns,State.goto,State.setDirty,State.setLocked,State.setInode,update_self]
      exact ⟨trivial,typed,by rwa [← current],fun _ => current⟩
    · exact (y e').elsewhere (update_of_ne same _ _) rfl (flag_other same) (flag_other same) (calls_update .idle rfl (by simp [Pc.has]))
  | @unlocks p e here mine clean =>
    by_cases same : e' = e
    · subst same
      obtain ⟨_,typed,_,current⟩ := (y e').locked p mine
      refine .nobody ((x'.busy e').free (by simp [State.setLocked,State.setInode])) fun _ _ => ?_
      simp only [State.setLocked,State.setInode,update_self]
      exact ⟨current clean,typed⟩
    · exact (y e').elsewhere (update_of_ne same _ _) rfl (flag_other same) (fun _ => rfl) fun _ _ => rfl
  | @updates p e here mine =>
    by_cases same : e' = e
    · subst same
      obtain ⟨valid,typed,stored,current⟩ := (y e').locked p mine
      refine .owner x' (p := p) mine ⟨valid,typed,?_,fun _ => ?_⟩
      · simpa [State.setDirty,State.write] using typed
      · simp [State.setDirty,State.write]
    · exact (y e').written unique c' same (c.used_of_has (.inl mine)) rfl rfl (fun _ => rfl) (flag_other same) fun _ _ => rfl
  | @modifies p e f here mine typed =>
    by_cases same : e' = e
    · subst same
      obtain ⟨valid,isTyped,stored,current⟩ := (y e').locked p mine
      refine .owner x' (p := p) mine ?_
      simp only [State.setDirty,State.setInode,update_self]
      exact ⟨valid,by rwa [typed],stored,by simp⟩
    · exact (y e').elsewhere (update_of_ne same _ _) rfl (fun _ => rfl) (flag_other same) fun _ _ => rfl
  | @frees p e t here held unused last valid unlinked =>
    by_cases same : e' = e
    · subst same
      exact .inIput x' (update_self p _ _)
    · have other : (Pc.iput e t .trunc).has ≠ some e' := fun h => same (Option.some.inj h).symm
      exact (y e').elsewhere (update_of_ne same _ _) rfl (fun _ => rfl) (fun _ => rfl) (calls_update (.iput e t .trunc) rfl other)
  | @clears p e t stage stage' d here =>
    by_cases same : e' = e
    · subst same
      exact .inIput x' (update_self p _ _)
    · have other : (Pc.iput e t stage').has ≠ some e' := fun h => same (Option.some.inj h).symm
      exact (y e').elsewhere (update_of_ne same _ _) rfl (fun _ => rfl) (fun _ => rfl) (calls_update (.iput e t stage') rfl other)
  | @writes p e t stage stage' here =>
    by_cases same : e' = e
    · subst same
      exact .inIput x' (update_self p _ _)
    · have other : (Pc.iput e t stage').has ≠ some e' := fun h => same (Option.some.inj h).symm
      exact (y e').written unique c' same (c.used_of_has (p := p) (.inr (by rw [here]; rfl))) rfl rfl (fun _ => rfl) (fun _ => rfl)
        (calls_update (.iput e t stage') rfl other)
  | @ends p e t stage here =>
    by_cases same : e' = e
    · subst same
      refine .stale (.inr (by simp [State.goto,State.drop,State.setInode])) ((x'.busy e').free ?_)
      simp [State.goto,State.drop,State.setInode]
    · exact (y e').elsewhere (update_of_ne same _ _) rfl (fun _ => rfl) (fun _ => rfl) (calls_update .idle rfl (by simp [Pc.has]))
  | @scans _ p pc here still =>
    exact (y e').keep ⟨rfl,rfl,rfl⟩ rfl (fun used free => ⟨used,free⟩) (fun q locked => ⟨locked,rfl⟩)
      fun q has => .inl (calls_update pc rfl (by simp [Pc.has_none still]) q has)
  | @allocates p k d here free =>
    by_cases same : (s.icache e').key = k
    · subst same
      exact (y e').allocates free rfl rfl (calls_update (.allocated (s.icache e').key) rfl (by simp [Pc.has]))
    · refine (y e').keep ⟨rfl,rfl,rfl⟩ (update_of_ne same _ _) (fun used free => ⟨used,free⟩)
        (fun q locked => ⟨locked,rfl⟩) fun q has => .inl (calls_update (.allocated k) rfl (by simp [Pc.has]) q has)

end

structure Sound (s : State P) : Prop where
  counted : Counted s
  exclusive : Exclusive s
  unique : Unique s.icache
  synced : ∀ e, Synced s e

section
variable {ninodes : Nat → Nat} {disk : Key → Dinode} {s s' : State P} {a : Action P} {p : P} {e : Entry} {t : Nat}

theorem Sound.init : Sound (State.init P disk) := by
  have nobody (q : P) (e : Entry) : ¬ (State.init P disk).Has q e := by
    rintro (locked | has)
    · exact locked rfl
    · cases has
  have unused (e : Entry) : ((State.init P disk).icache e).ref = 0 := rfl
  refine ⟨⟨fun e => rfl,?_,?_,?_⟩,⟨?_,?_⟩,?_,fun e => .stale (.inl (unused e)) fun q => nobody q e⟩
  · intro e t held
    cases held
  · rintro p e t (locked | uses)
    · cases locked
    · cases uses
  · intro p e t drops
    cases drops
  · intro e
    refine ⟨none,fun q => ⟨fun has => absurd has (nobody q e),nofun⟩,rfl⟩
  · intro p e locked
    exact absurd rfl locked
  · intro e e' used
    rw [unused e] at used
    omega

theorem Sound.kept (sound : Sound s) (permits : s.Permits a) (taken : step ninodes s a = some (.ok s')) : Sound s' := by
  have moves := moves_of_step permits sound.counted.count taken
  exact ⟨sound.counted.step moves,sound.exclusive.step sound.counted moves,unique_step sound.unique sound.counted moves,
    synced_step sound.synced sound.unique sound.counted sound.exclusive moves⟩

theorem Reachable.sound (reachable : Reachable ninodes disk s) : Sound s :=
  Steps.Reachable.invariant (I := Sound) reachable .init fun _ _ _ _ sound permits taken => sound.kept permits taken

theorem Sound.busy_iff (sound : Sound s) (e : Entry) : (s.icache e).busy = true ↔ ∃ p, s.Has p e := by
  constructor
  · intro flag
    by_contra nobody
    obtain ⟨lock,guards,same⟩ := sound.exclusive.busy e
    rw [flag] at same
    obtain ⟨p,isP⟩ := Option.isSome_iff_exists.mp same.symm
    exact nobody ⟨p,(guards p).mpr isP⟩
  · rintro ⟨p,has⟩
    exact (sound.exclusive.busy e).flag has

theorem Sound.free (sound : Sound s) (permits : s.Permits (.iput p e t)) (last : (s.icache e).ref = 1) :
    (s.icache e).busy = false := by
  obtain ⟨held,unused⟩ := permits
  by_contra flag
  obtain ⟨q,has⟩ := (sound.busy_iff e).mp (by simpa using flag)
  exact sound.counted.nobody held unused last q has

theorem Sound.not_iput_busy (sound : Sound s) (permits : s.Permits a) : step ninodes s a ≠ some (.error "iput busy") := by
  intro stopped
  cases a with
  | iput p e t =>
    simp only [step] at stopped
    split at stopped
    · split at stopped
      next frees =>
        rw [sound.free permits frees.1] at stopped
        cases stopped
      next => cases stopped
    · cases stopped
  | iget p k =>
    simp only [step,State.get] at stopped
    repeat' split at stopped
    all_goals simp at stopped
  | turn p =>
    simp only [step,State.turn,State.get] at stopped
    repeat' split at stopped
    all_goals simp at stopped
  | _ =>
    simp only [step] at stopped
    repeat' split at stopped
    all_goals simp at stopped

theorem Moves.clean (m : Moves s a s') (before : s.locked p e = none) (after : s'.locked p e ≠ none) : s'.dirty p e = false := by
  have returned {s₀ : State P} {q : P} {e₀ : Entry} {t : Nat} (same : s₀.locked = s.locked)
      (locked : (s₀.returns q e₀ t).locked p e ≠ none) : (s₀.returns q e₀ t).dirty p e = false := by
    obtain ⟨t',isLocked⟩ := Option.ne_none_iff_exists'.mp locked
    rcases locked_returns p e t' isLocked with was | ⟨isP,isE⟩
    · rw [same,before] at was
      cases was
    · cases isE
      simp [State.returns,State.goto,State.setDirty,isP]
  cases m with
  | enters here valid => exact returned rfl after
  | loads here typed => exact returned rfl after
  | unlocks here mine clean =>
    obtain ⟨t',isLocked⟩ := Option.ne_none_iff_exists'.mp after
    cases before.symm.trans (locked_unlock isLocked)
  | _ => exact absurd before after

theorem Sound.frees (sound : Sound s) (permits : s.Permits (.iput p e t)) (taken : step ninodes s (.iput p e t) = some (.ok s'))
    (freeing : s'.pc p ≠ .idle) : (s.disk (s.icache e).key).nlink = 0 ∧ s.held e = {t} := by
  simp only [step] at taken
  split at taken
  next here =>
    split at taken
    next last =>
      obtain ⟨last,valid,unlinked⟩ := last
      have count := sound.counted.count e
      obtain ⟨current,_⟩ := (sound.synced e).fresh (by omega) valid (sound.free permits last)
      obtain ⟨t',only⟩ := Finset.card_eq_one.mp (show (s.held e).card = 1 by omega)
      have held := permits.1
      rw [only,Finset.mem_singleton] at held
      rw [← current,only,held]
      exact ⟨unlinked,rfl⟩
    next =>
      cases taken
      exact absurd here freeing
  next => cases taken

/-- The cache has one entry in use for an inode and counts its references. One process
    at a time has an inode, `iput` never finds one that it frees busy, and frees an inode only
    without links and through the only reference to it. The fields of a locked inode
    that has not been changed since `ilock` returned or `iupdate` was called are those on disk. -/
theorem inode_cache_protocol (reachable : Reachable ninodes disk s) :
    (∀ e e', (s.icache e).ref > 0 → (s.icache e').ref > 0 → (s.icache e).key = (s.icache e').key → e = e') ∧
    (∀ e, (s.icache e).ref = (s.held e).card) ∧
    (∀ e, (s.icache e).busy = true ↔ ∃ p, s.Has p e) ∧ (∀ e p q, s.Has p e → s.Has q e → p = q) ∧
    (∀ a, s.Permits a → step ninodes s a ≠ some (.error "iput busy")) ∧
    (∀ p e, s.locked p e ≠ none → s.dirty p e = false → (s.icache e).din = s.disk (s.icache e).key) ∧
    (∀ a s' p e, s.Permits a → step ninodes s a = some (.ok s') → s.locked p e = none → s'.locked p e ≠ none →
      (s'.icache e).din = s'.disk (s'.icache e).key) ∧
    (∀ p e t s', s.Permits (.iput p e t) → step ninodes s (.iput p e t) = some (.ok s') → s'.pc p ≠ .idle →
      (s.disk (s.icache e).key).nlink = 0 ∧ s.held e = {t}) := by
  have sound := reachable.sound
  refine ⟨sound.unique,sound.counted.count,sound.busy_iff,?_,fun a => sound.not_iput_busy,?_,?_,?_⟩
  · intro e p q mine theirs
    exact ((sound.exclusive.busy e).alone mine theirs).symm
  · intro p e locked clean
    exact ((sound.synced e).locked p locked).2.2.2 clean
  · intro a s' p e permits taken before after
    have moves := moves_of_step permits sound.counted.count taken
    exact (((sound.kept permits taken).synced e).locked p after).2.2.2 (moves.clean before after)
  · intro p e t s' permits taken freeing
    exact sound.frees permits taken freeing

end

/-! A reference is obtained while the inode is freed, and finds it as `ialloc` has left it. -/

instance (s : State P) (p : P) (e : Entry) (t : Nat) : Decidable (s.Uses p e t) :=
  inferInstanceAs (Decidable (_ ∨ _))

instance [Fintype P] (s : State P) : DecidablePred s.Permits
  | .idup _ _ _ | .ilock _ _ _ | .iunlock _ _ | .iput _ _ _ | .modify _ _ _ => inferInstanceAs (Decidable (_ ∧ _))
  | .ialloc _ _ _ | .iupdate _ _ => inferInstanceAs (Decidable (_ ≠ _))
  | .iget _ _ | .turn _ => .isTrue trivial

def first : Entry := ⟨0,NINODE_pos⟩

/-- The first process finds the only inode, which has no links, and frees it up to the last
    section of `iput`. The second allocates it meanwhile and locks it when the first is done. -/
def revived : List (Action Bool) :=
  [.iget false ⟨1,1⟩,.ilock false first 0,.turn false,.turn false,.turn false,.iunlock false first,
    .iput false first 0,.turn false,.turn false,.turn false,.turn false,
    .ialloc true 1 2,.turn true,.turn true,.ilock true first 1,.turn false,.turn true,.turn true,.turn true]

def unlinked (k : Key) : Dinode := if k = ⟨1,1⟩ then { Dinode.zero with type := 3, size := 7 } else Dinode.zero

theorem inode_cache_protocol_revived : ∃ s : State Bool, Reachable (fun _ => 2) unlinked s ∧
    s.locked true first = some 1 ∧ (s.icache first).key = ⟨1,1⟩ ∧ (s.icache first).din.type = 2 ∧
    (s.icache first).din = s.disk (s.icache first).key := by
  have facts : (Steps.run (step fun _ => 2) State.Permits (State.init Bool unlinked) revived).any (fun s =>
      decide (s.locked true first = some 1) && decide (s.dirty true first = false) && decide ((s.icache first).key = ⟨1,1⟩) &&
      decide ((s.icache first).din.type = 2)) = true := by
    decide +kernel
  obtain ⟨s,run,holds⟩ := (Option.any_eq_true _ _).mp facts
  simp only [Bool.and_eq_true,decide_eq_true_eq] at holds
  obtain ⟨⟨⟨locked,clean⟩,key⟩,type⟩ := holds
  have reachable : Reachable (fun _ => 2) unlinked s := Steps.reachable_run .start run
  obtain ⟨-,-,-,-,-,current,-⟩ := inode_cache_protocol reachable
  exact ⟨s,reachable,locked,key,type,current true first (by rw [locked]; nofun) clean⟩

end Osce.Icache
