import Osce.Icache.Moves

/-!
Who refers to an inode and who has it: the references are counted, and one process at a
time has an inode, while `I_BUSY` is set.
-/
namespace Osce.Icache
open Osce.Lib Osce.Layout Function
set_option linter.unusedSectionVars false

variable {P : Type} [DecidableEq P]

/-- The references are counted, and those in use are held; who drops one uses it alone. -/
structure Counted (s : State P) : Prop where
  count : ∀ e, (s.icache e).ref = (s.held e).card
  below : ∀ e t, t ∈ s.held e → t < s.next
  used : ∀ p e t, s.Uses p e t → t ∈ s.held e
  dropped : ∀ p e t, (s.pc p).drops = some (e,t) → s.locked p e ≠ some t ∧ ∀ q, s.Uses q e t → q = p

section
variable {s s' : State P} {a : Action P} {p q : P} {e e' : Entry} {t t' : Nat} {pc : Pc}

theorem Pc.uses_of_drops (drops : pc.drops = some (e,t)) : pc.uses = some (e,t) := by
  cases pc <;> first | exact drops | cases drops

theorem Pc.drops_none (free : pc.uses = none) : pc.drops = none := by
  cases pc <;> first | rfl | cases free

theorem update_ref {icache : Entry → Inode} {ip : Inode} (same : ip.ref = (icache e).ref) (e' : Entry) :
    (update icache e ip e').ref = (icache e').ref := by
  by_cases here : e' = e
  · rw [here,update_self,same]
  · rw [update_of_ne here]

theorem Counted.keep (c : Counted s) (refs : ∀ e, (s'.icache e).ref = (s.icache e).ref) (held : s'.held = s.held)
    (next : s'.next = s.next) (uses : ∀ q e t, s'.Uses q e t → s.Uses q e t)
    (drops : ∀ q e t, (s'.pc q).drops = some (e,t) → (s.pc q).drops = some (e,t))
    (locked : ∀ q e t, s'.locked q e = some t → s.locked q e = some t ∨ (s.pc q).drops = none) : Counted s' := by
  refine ⟨?_,?_,?_,?_⟩
  · intro e
    rw [refs,held]
    exact c.count e
  · rw [held,next]
    exact c.below
  · intro q e t uses'
    rw [held]
    exact c.used q e t (uses q e t uses')
  · intro p e t drops'
    have before := drops p e t drops'
    obtain ⟨unlocked,alone⟩ := c.dropped p e t before
    refine ⟨?_,fun q uses' => alone q (uses q e t uses')⟩
    intro isLocked
    rcases locked p e t isLocked with old | none
    · exact unlocked old
    · rw [none] at before
      cases before

theorem Counted.goes (c : Counted s) {pc : Pc} (refs : ∀ e, (s'.icache e).ref = (s.icache e).ref) (held : s'.held = s.held)
    (next : s'.next = s.next) (moves : s'.pc = update s.pc p pc) (locked : s'.locked = s.locked)
    (same : pc.uses = (s.pc p).uses ∨ pc.uses = none) (drops : pc.drops = (s.pc p).drops ∨ pc.drops = none) : Counted s' := by
  refine c.keep refs held next ?_ ?_ ?_
  · rintro q e t (isLocked | inCall)
    · rw [locked] at isLocked
      exact .inl isLocked
    · rw [moves] at inCall
      by_cases isP : q = p
      · rw [isP,update_self] at inCall
        rw [isP]
        rcases same with same | none
        · exact .inr (same.symm.trans inCall)
        · rw [none] at inCall
          cases inCall
      · rw [update_of_ne isP] at inCall
        exact .inr inCall
  · intro q e t drops'
    rw [moves] at drops'
    by_cases isP : q = p
    · rw [isP,update_self] at drops'
      rw [isP]
      rcases drops with same | none
      · exact same.symm.trans drops'
      · rw [none] at drops'
        cases drops'
    · rwa [update_of_ne isP] at drops'
  · intro q e t isLocked
    rw [locked] at isLocked
    exact .inl isLocked

/-- A process begins to use a reference that nobody drops, or to drop one that nobody uses. -/
theorem Counted.begins (c : Counted s) {pc : Pc} (refs : ∀ e, (s'.icache e).ref = (s.icache e).ref) (held : s'.held = s.held)
    (next : s'.next = s.next) (moves : s'.pc = update s.pc p pc) (locked : s'.locked = s.locked)
    (uses : pc.uses = some (e,t)) (here : t ∈ s.held e)
    (fair : pc.drops = none ∧ (∀ q, (s.pc q).drops ≠ some (e,t)) ∨ ∀ q, ¬ s.Uses q e t) : Counted s' := by
  have old {q : P} {e' : Entry} {t' : Nat} (uses' : s'.Uses q e' t') : s.Uses q e' t' ∨ q = p ∧ (e',t') = (e,t) := by
    rcases uses' with isLocked | inCall
    · rw [locked] at isLocked
      exact .inl (.inl isLocked)
    · rw [moves] at inCall
      by_cases isP : q = p
      · rw [isP,update_self,uses] at inCall
        exact .inr ⟨isP,(Option.some.inj inCall).symm⟩
      · rw [update_of_ne isP] at inCall
        exact .inl (.inr inCall)
  refine ⟨?_,?_,?_,?_⟩
  · intro e
    rw [refs,held]
    exact c.count e
  · rw [held,next]
    exact c.below
  · intro q e' t' uses'
    rw [held]
    rcases old uses' with before | ⟨-,same⟩
    · exact c.used q e' t' before
    · cases same
      exact here
  · intro r e' t' drops
    rw [locked]
    by_cases isP : r = p
    · rw [moves,isP,update_self] at drops
      cases uses.symm.trans (Pc.uses_of_drops drops)
      rcases fair with ⟨none,-⟩ | unused
      · rw [none] at drops
        cases drops
      · refine ⟨fun isLocked => unused r (.inl isLocked),fun q uses' => ?_⟩
        rcases old uses' with before | ⟨same,-⟩
        · exact absurd before (unused q)
        · rw [same,isP]
    · rw [moves,update_of_ne isP] at drops
      obtain ⟨unlocked,alone⟩ := c.dropped r e' t' drops
      refine ⟨unlocked,fun q uses' => ?_⟩
      rcases old uses' with before | ⟨-,same⟩
      · exact alone q before
      · cases same
        rcases fair with ⟨-,kept⟩ | unused
        · exact absurd drops (kept r)
        · exact absurd (.inr (Pc.uses_of_drops drops)) (unused r)

theorem Counted.gains (c : Counted s) {ip : Inode} (more : ip.ref = (s.icache e).ref + 1) :
    Counted (((s.goto p .idle).setInode e ip).obtains e) := by
  have fresh : s.next ∉ s.held e := fun held => Nat.lt_irrefl _ (c.below e _ held)
  have moved : Counted (s.goto p .idle) :=
    c.goes (fun _ => rfl) rfl rfl rfl rfl (.inr rfl) (.inr rfl)
  have held (e' : Entry) : s.held e' ⊆ (((s.goto p .idle).setInode e ip).obtains e).held e' := by
    simp only [State.obtains,State.setInode,State.goto]
    by_cases same : e' = e
    · rw [same,update_self]
      exact Finset.subset_insert _ _
    · rw [update_of_ne same]
  refine ⟨?_,?_,fun q e' t uses => held e' (moved.used q e' t uses),moved.dropped⟩
  · intro e'
    simp only [State.obtains,State.setInode,State.goto]
    by_cases same : e' = e
    · rw [same,update_self,update_self,Finset.card_insert_of_notMem fresh,more,c.count e]
      rfl
    · rw [update_of_ne same,update_of_ne same]
      exact c.count e'
  · intro e' t member
    simp only [State.obtains,State.setInode,State.goto] at member ⊢
    by_cases same : e' = e
    · rw [same,update_self] at member
      rcases Finset.mem_insert.mp member with rfl | old
      · exact Nat.lt_succ_self _
      · exact Nat.lt_succ_of_lt (c.below e t old)
    · rw [update_of_ne same] at member
      exact Nat.lt_succ_of_lt (c.below e' t member)

theorem Counted.loses (c : Counted s) {ip : Inode} (here : t ∈ s.held e) (less : ip.ref = (s.icache e).ref - 1)
    (unused : ∀ q, ¬ s.Uses q e t) : Counted ((s.setInode e ip).drop e t) := by
  refine ⟨?_,?_,?_,c.dropped⟩
  · intro e'
    simp only [State.drop,State.setInode]
    by_cases same : e' = e
    · have some := Finset.card_pos.mpr ⟨t,here⟩
      have count := c.count e
      rw [same,update_self,update_self,less,Finset.card_erase_of_mem here]
      omega
    · rw [update_of_ne same,update_of_ne same]
      exact c.count e'
  · intro e' t' member
    simp only [State.drop,State.setInode] at member
    by_cases same : e' = e
    · rw [same,update_self] at member
      exact c.below e t' (Finset.mem_of_mem_erase member)
    · rw [update_of_ne same] at member
      exact c.below e' t' member
  · intro q e' t' uses
    have before := c.used q e' t' uses
    simp only [State.drop,State.setInode]
    by_cases same : e' = e
    · subst same
      rw [update_self]
      refine Finset.mem_erase.mpr ⟨?_,before⟩
      rintro rfl
      exact unused q uses
    · rwa [update_of_ne same]

theorem locked_returns (q : P) (e' : Entry) (t' : Nat) (locked : (s.returns p e t).locked q e' = some t') :
    s.locked q e' = some t' ∨ q = p ∧ (e',t') = (e,t) := by
  simp only [State.returns,State.setLocked,State.setDirty,State.goto] at locked
  by_cases isP : q = p
  · rw [isP,update_self] at locked
    by_cases isE : e' = e
    · rw [isE,update_self] at locked
      cases locked
      exact .inr ⟨isP,by rw [isE]⟩
    · rw [update_of_ne isE] at locked
      rw [isP]
      exact .inl locked
  · rw [update_of_ne isP] at locked
    exact .inl locked

theorem locked_unlock {s : State P} {q : P} {e' : Entry} {t' : Nat} (locked : (s.setLocked p e none).locked q e' = some t') :
    s.locked q e' = some t' := by
  simp only [State.setLocked] at locked
  by_cases isP : q = p
  · rw [isP,update_self] at locked
    by_cases isE : e' = e
    · rw [isE,update_self] at locked
      cases locked
    · rw [update_of_ne isE] at locked
      rwa [isP]
  · rwa [update_of_ne isP] at locked

theorem Counted.returns (c : Counted s) (here : (s.pc p).uses = some (e,t)) (kept : (s.pc p).drops = none) :
    Counted (s.returns p e t) := by
  refine c.keep (fun _ => rfl) rfl rfl ?_ ?_ ?_
  · rintro q e' t' (locked | inCall)
    · rcases locked_returns q e' t' locked with old | ⟨rfl,same⟩
      · exact .inl old
      · cases same
        exact .inr here
    · simp only [State.returns,State.setLocked,State.setDirty,State.goto] at inCall
      by_cases isP : q = p
      · rw [isP,update_self] at inCall
        cases inCall
      · rw [update_of_ne isP] at inCall
        exact .inr inCall
  · intro q e' t' drops
    simp only [State.returns,State.setLocked,State.setDirty,State.goto] at drops
    by_cases isP : q = p
    · rw [isP,update_self] at drops
      cases drops
    · rwa [update_of_ne isP] at drops
  · intro q e' t' locked
    rcases locked_returns q e' t' locked with old | ⟨rfl,-⟩
    · exact .inl old
    · exact .inr kept

theorem Counted.setInode (c : Counted s) {ip : Inode} (same : ip.ref = (s.icache e).ref) : Counted (s.setInode e ip) :=
  c.keep (update_ref same) rfl rfl (fun _ _ _ => id) (fun _ _ _ => id) fun _ _ _ => .inl

theorem Counted.step (c : Counted s) (m : Moves s a s') : Counted s' := by
  cases m with
  | shares here used => exact c.gains rfl
  | recycles here unused absent => exact c.gains (by rw [unused]; rfl)
  | drops here held unused => exact c.loses held rfl unused
  | waits here held kept => exact c.begins (fun _ => rfl) rfl rfl rfl rfl rfl held (.inl ⟨rfl,kept⟩)
  | locks here free =>
    exact c.goes (update_ref rfl) rfl rfl rfl rfl (.inl (by rw [here]; rfl)) (.inr rfl)
  | enters here valid => exact c.returns (by rw [here]; rfl) (by rw [here]; rfl)
  | reads here stale =>
    exact c.goes (update_ref rfl) rfl rfl rfl rfl (.inl (by rw [here]; rfl)) (.inr rfl)
  | @loads p e t here typed =>
    have changed : Counted (s.setInode e { s.icache e with valid := true }) := c.setInode rfl
    exact changed.returns (by simp only [State.setInode,here]; rfl) (by simp only [State.setInode,here]; rfl)
  | @unlocks p e here mine clean =>
    refine c.keep (update_ref rfl) rfl rfl ?_ (fun _ _ _ => id) fun q e' t' locked => .inl (locked_unlock locked)
    rintro q e' t' (locked | inCall)
    · exact .inl (locked_unlock locked)
    · exact .inr inCall
  | updates here mine => exact c.keep (fun _ => rfl) rfl rfl (fun _ _ _ => id) (fun _ _ _ => id) fun _ _ _ => .inl
  | modifies here mine typed => exact c.keep (update_ref rfl) rfl rfl (fun _ _ _ => id) (fun _ _ _ => id) fun _ _ _ => .inl
  | frees here held unused last valid unlinked =>
    exact c.begins (update_ref rfl) rfl rfl rfl rfl rfl held (.inr unused)
  | clears here => exact c.goes (update_ref rfl) rfl rfl rfl rfl (.inl (by rw [here]; rfl)) (.inl (by rw [here]; rfl))
  | writes here => exact c.goes (fun _ => rfl) rfl rfl rfl rfl (.inl (by rw [here]; rfl)) (.inl (by rw [here]; rfl))
  | @ends p e t stage here =>
    have drops : (s.pc p).drops = some (e,t) := by rw [here]; rfl
    have held := c.used p e t (.inr (Pc.uses_of_drops drops))
    obtain ⟨unlocked,alone⟩ := c.dropped p e t drops
    have left : Counted (s.goto p .idle) := c.goes (fun _ => rfl) rfl rfl rfl rfl (.inr rfl) (.inr rfl)
    refine left.loses held rfl ?_
    rintro q (locked | inCall)
    · rw [alone q (.inl locked)] at locked
      exact unlocked locked
    · simp only [State.goto] at inCall
      by_cases isP : q = p
      · rw [isP,update_self] at inCall
        cases inCall
      · rw [update_of_ne isP] at inCall
        exact isP (alone q (.inr inCall))
  | scans here still => exact c.goes (fun _ => rfl) rfl rfl rfl rfl (.inr still) (.inr (Pc.drops_none still))
  | allocates here free => exact c.goes (fun _ => rfl) rfl rfl rfl rfl (.inr rfl) (.inr rfl)

end

/-- A process has an inode to itself: it has locked it, or works on it in a call. -/
def State.Has (s : State P) (p : P) (e : Entry) : Prop := s.locked p e ≠ none ∨ (s.pc p).has = some e

/-- `I_BUSY` is set exactly while a process has the inode, and only one has it. -/
def State.Busy (s : State P) (e : Entry) : Prop :=
  ∃ lock, Guards lock (fun p => s.Has p e) ∧ (s.icache e).busy = lock.isSome

/-- Locks are exclusive, and a process works on no inode that it has locked already. -/
structure Exclusive (s : State P) : Prop where
  busy : ∀ e, s.Busy e
  once : ∀ p e, s.locked p e ≠ none → (s.pc p).has ≠ some e

section
variable {s s' : State P} {a : Action P} {p q : P} {e e' : Entry} {t t' : Nat} {pc : Pc}

theorem State.Busy.same (busy : s.Busy e) (has : ∀ q, s'.Has q e ↔ s.Has q e) (flag : (s'.icache e).busy = (s.icache e).busy) :
    s'.Busy e := by
  obtain ⟨lock,guards,isBusy⟩ := busy
  exact ⟨lock,fun q => (has q).trans (guards q),flag.trans isBusy⟩

theorem State.Busy.alone (busy : s.Busy e) (mine : s.Has p e) (theirs : s.Has q e) : q = p := by
  obtain ⟨lock,guards,-⟩ := busy
  exact guards.alone mine theirs

theorem State.Busy.flag (busy : s.Busy e) (mine : s.Has p e) : (s.icache e).busy = true := by
  obtain ⟨lock,guards,isBusy⟩ := busy
  rw [isBusy,(guards p).mp mine]
  rfl

theorem State.Busy.free (busy : s.Busy e) (free : (s.icache e).busy = false) (q : P) : ¬ s.Has q e := by
  intro has
  rw [busy.flag has] at free
  cases free

theorem State.Busy.enters (busy : s.Busy e) (free : (s.icache e).busy = false) (mine : s'.Has p e)
    (others : ∀ q, q ≠ p → (s'.Has q e ↔ s.Has q e)) (flag : (s'.icache e).busy = true) : s'.Busy e := by
  obtain ⟨lock,guards,isBusy⟩ := busy
  have none : lock = none := by
    rw [free] at isBusy
    simpa using isBusy.symm
  exact ⟨some p,guards.enters none mine others,flag⟩

theorem State.Busy.leaves (busy : s.Busy e) (was : s.Has p e) (gone : ¬ s'.Has p e)
    (others : ∀ q, q ≠ p → (s'.Has q e ↔ s.Has q e)) (flag : (s'.icache e).busy = false) : s'.Busy e := by
  obtain ⟨lock,guards,-⟩ := busy
  exact ⟨none,guards.leaves was gone others,flag⟩

theorem update_busy {icache : Entry → Inode} {ip : Inode} (same : ip.busy = (icache e).busy) (e' : Entry) :
    (update icache e ip e').busy = (icache e').busy := by
  by_cases here : e' = e
  · rw [here,update_self,same]
  · rw [update_of_ne here]

theorem Exclusive.goes (x : Exclusive s) (flags : ∀ e, (s'.icache e).busy = (s.icache e).busy) (locked : s'.locked = s.locked)
    (moves : s'.pc = update s.pc p pc) (same : pc.has = (s.pc p).has) : Exclusive s' := by
  have has (q : P) : (s'.pc q).has = (s.pc q).has := by
    rw [moves]
    by_cases isP : q = p
    · rw [isP,update_self,same]
    · rw [update_of_ne isP]
  refine ⟨fun e => (x.busy e).same (fun q => ?_) (flags e),?_⟩
  · rw [State.Has,State.Has,locked,has]
  · intro q e
    rw [locked,has]
    exact x.once q e

theorem Pc.has_idle : Pc.idle.has = none := rfl

theorem Pc.has_none (free : pc.uses = none) : pc.has = none := by
  cases pc <;> first | rfl | cases free

theorem State.Has.uses (has : s.Has p e) : ∃ t, s.Uses p e t := by
  rcases has with locked | inCall
  · obtain ⟨t,isLocked⟩ := Option.ne_none_iff_exists'.mp locked
    exact ⟨t,.inl isLocked⟩
  · generalize pcIs : s.pc p = pc at inCall
    cases pc with
    | load e t =>
      cases inCall
      exact ⟨t,.inr (by rw [pcIs]; rfl)⟩
    | loaded e t =>
      cases inCall
      exact ⟨t,.inr (by rw [pcIs]; rfl)⟩
    | iput e t stage =>
      cases inCall
      exact ⟨t,.inr (by rw [pcIs]; rfl)⟩
    | idle => cases inCall
    | ilock e t => cases inCall
    | ialloc dev inum type => cases inCall
    | allocated k => cases inCall

theorem Counted.nobody (c : Counted s) (held : t ∈ s.held e) (unused : ∀ q, ¬ s.Uses q e t) (last : (s.icache e).ref = 1)
    (q : P) : ¬ s.Has q e := by
  intro has
  obtain ⟨t',uses⟩ := has.uses
  have one : (s.held e).card = 1 := by
    have := c.count e
    omega
  have same : t' = t := Finset.card_le_one.mp (le_of_eq one) t' (c.used q e t' uses) t held
  subst same
  exact unused q uses

theorem Counted.unreferenced (c : Counted s) (none : (s.icache e).ref = 0) (q : P) : ¬ s.Has q e := by
  intro has
  obtain ⟨t,uses⟩ := has.uses
  have := ref_pos (c.count e) (c.used q e t uses)
  omega

theorem Exclusive.keep (x : Exclusive s) (flags : ∀ e, (s'.icache e).busy = (s.icache e).busy) (locked : s'.locked = s.locked)
    (pc : s'.pc = s.pc) : Exclusive s' := by
  refine ⟨fun e => (x.busy e).same (fun q => ?_) (flags e),?_⟩
  · rw [State.Has,State.Has,locked,pc]
  · rw [locked,pc]
    exact x.once

theorem Exclusive.clear (x : Exclusive s) (ip : Inode) (nobody : ∀ q, ¬ s.Has q e) (flag : ip.busy = false) :
    Exclusive (s.setInode e ip) := by
  refine ⟨fun e' => ?_,x.once⟩
  by_cases here : e' = e
  · subst here
    exact ⟨none,fun q => ⟨fun has => absurd has (nobody q),nofun⟩,by simp [State.setInode,flag]⟩
  · refine (x.busy e').same (fun q => Iff.rfl) ?_
    simp only [State.setInode,update_of_ne here]

theorem Exclusive.takes (x : Exclusive s) {ip : Inode} (nobody : ∀ q, ¬ s.Has q e) (before : (s.pc p).has = none)
    (now : pc.has = some e) (flag : ip.busy = true) : Exclusive ((s.setInode e ip).goto p pc) := by
  have free : (s.icache e).busy = false := by
    obtain ⟨lock,guards,isBusy⟩ := x.busy e
    rw [isBusy]
    cases lock with
    | none => rfl
    | some q => exact absurd ((guards q).mpr rfl) (nobody q)
  have other (q : P) (isP : q ≠ p) (e' : Entry) : ((s.setInode e ip).goto p pc).Has q e' ↔ s.Has q e' := by
    simp only [State.Has,State.goto,State.setInode,update_of_ne isP]
  constructor
  · intro e'
    by_cases here : e' = e
    · subst here
      refine (x.busy e').enters free ?_ (fun q isP => other q isP e') (by simp [State.goto,State.setInode,flag])
      exact .inr (by simp [State.goto,now])
    · refine (x.busy e').same (fun q => ?_) (by simp [State.goto,State.setInode,update_of_ne here])
      by_cases isP : q = p
      · subst isP
        have apart : ¬ e = e' := fun h => here h.symm
        simp [State.Has,State.goto,State.setInode,before,now,apart]
      · exact other q isP e'
  · intro q e' locked
    by_cases isP : q = p
    · subst isP
      simp only [State.goto,State.setInode,update_self,now]
      intro same
      cases same
      exact nobody q (.inl locked)
    · simp only [State.goto,State.setInode,update_of_ne isP]
      exact x.once q e' locked

theorem Exclusive.returns (x : Exclusive s) (here : (s.pc p).has = some e) : Exclusive (s.returns p e t) := by
  have other (q : P) (isP : q ≠ p) (e' : Entry) : (s.returns p e t).Has q e' ↔ s.Has q e' := by
    simp only [State.Has,State.returns,State.goto,State.setDirty,State.setLocked,update_of_ne isP]
  constructor
  · intro e'
    refine (x.busy e').same (fun q => ?_) rfl
    by_cases isP : q = p
    · subst isP
      by_cases isE : e' = e
      · subst isE
        refine iff_of_true (.inl ?_) (.inr here)
        simp [State.returns,State.goto,State.setDirty,State.setLocked]
      · have apart : ¬ e = e' := fun h => isE h.symm
        simp [State.Has,State.returns,State.goto,State.setDirty,State.setLocked,isE,here,apart,Pc.has_idle]
    · exact other q isP e'
  · intro q e' locked
    by_cases isP : q = p
    · subst isP
      simp [State.returns,State.goto,State.setDirty,State.setLocked,Pc.has_idle]
    · simp only [State.returns,State.goto,State.setDirty,State.setLocked,update_of_ne isP] at locked ⊢
      exact x.once q e' locked

theorem Exclusive.gives (x : Exclusive s) (was : s.Has p e) (others : ∀ q e', ¬ (q = p ∧ e' = e) → (s'.Has q e' ↔ s.Has q e'))
    (gone : ¬ s'.Has p e) (flag : (s'.icache e).busy = false) (flags : ∀ e', e' ≠ e → (s'.icache e').busy = (s.icache e').busy)
    (once : ∀ q e', s'.locked q e' ≠ none → (s'.pc q).has ≠ some e') : Exclusive s' := by
  refine ⟨fun e' => ?_,once⟩
  by_cases here : e' = e
  · subst here
    exact (x.busy e').leaves was gone (fun q isP => others q e' fun h => isP h.1) flag
  · exact (x.busy e').same (fun q => others q e' fun h => here h.2) (flags e' here)

theorem Exclusive.step (x : Exclusive s) (c : Counted s) (m : Moves s a s') : Exclusive s' := by
  cases m with
  | @shares _ p e here used => exact x.goes (p := p) (update_busy rfl) rfl rfl (Pc.has_none here).symm
  | @recycles _ p e k here unused absent =>
    have left : Exclusive (s.goto p .idle) := x.goes (fun _ => rfl) rfl rfl (Pc.has_none here).symm
    have counted : Counted (s.goto p .idle) := c.goes (fun _ => rfl) rfl rfl rfl rfl (.inr rfl) (.inr rfl)
    exact (left.clear { s.icache e with key := k, ref := 1, busy := false, valid := false }
      (counted.unreferenced unused) rfl).keep (fun _ => rfl) rfl rfl
  | drops here held unused => exact x.keep (update_busy rfl) rfl rfl
  | waits here held kept => exact x.goes (fun _ => rfl) rfl rfl (by rw [here]; rfl)
  | @locks p e t here free => exact x.takes ((x.busy e).free free) (by rw [here]; rfl) rfl rfl
  | enters here valid => exact x.returns (by rw [here]; rfl)
  | reads here stale => exact x.goes (update_busy rfl) rfl rfl (by rw [here]; rfl)
  | @loads p e t here typed =>
    have changed : Exclusive (s.setInode e { s.icache e with valid := true }) := x.keep (update_busy rfl) rfl rfl
    exact changed.returns (by simp only [State.setInode,here]; rfl)
  | @unlocks p e here mine clean =>
    refine x.gives (.inl mine) ?_ ?_ (by simp [State.setLocked,State.setInode]) ?_ ?_
    · intro q e' apart
      by_cases isP : q = p
      · subst isP
        have isE : e' ≠ e := fun h => apart ⟨rfl,h⟩
        simp [State.Has,State.setLocked,State.setInode,isE]
      · simp [State.Has,State.setLocked,State.setInode,isP]
    · simp [State.Has,State.setLocked,State.setInode,here,Pc.has_idle]
    · intro e' isE
      simp [State.setLocked,State.setInode,isE]
    · intro q e' locked
      obtain ⟨t,isLocked⟩ := Option.ne_none_iff_exists'.mp locked
      have before : s.locked q e' = some t := locked_unlock isLocked
      exact x.once q e' (by rw [before]; exact nofun)
  | updates here mine => exact x.keep (fun _ => rfl) rfl rfl
  | modifies here mine typed => exact x.keep (update_busy rfl) rfl rfl
  | frees here held unused last valid unlinked =>
    exact x.takes (c.nobody held unused last) (by rw [here]; rfl) rfl rfl
  | clears here => exact x.goes (update_busy rfl) rfl rfl (by rw [here]; rfl)
  | writes here => exact x.goes (fun _ => rfl) rfl rfl (by rw [here]; rfl)
  | @ends p e t stage here =>
    have has : (s.pc p).has = some e := by rw [here]; rfl
    refine x.gives (p := p) (e := e) (.inr has) ?_ ?_ (by simp [State.goto,State.drop,State.setInode]) ?_ ?_
    · intro q e' apart
      by_cases isP : q = p
      · subst isP
        have isE : ¬ e = e' := fun h => apart ⟨rfl,h.symm⟩
        simp [State.Has,State.goto,State.drop,State.setInode,has,isE,Pc.has_idle]
      · simp [State.Has,State.goto,State.drop,State.setInode,isP]
    · rintro (locked | inCall)
      · exact x.once p e locked has
      · simp [State.goto,Pc.has_idle] at inCall
    · intro e' isE
      simp [State.goto,State.drop,State.setInode,isE]
    · intro q e' locked
      by_cases isP : q = p
      · subst isP
        simp [State.goto,Pc.has_idle]
      · simp only [State.goto,update_of_ne isP]
        exact x.once q e' locked
  | scans here still => exact x.goes (fun _ => rfl) rfl rfl (by rw [Pc.has_none here,Pc.has_none still])
  | allocates here free => exact x.goes (fun _ => rfl) rfl rfl (Pc.has_none here).symm

end

end Osce.Icache
