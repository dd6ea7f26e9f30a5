import Osce.Ide.Code

/-!
The disk queue. It is the list of the requests that are not finished, in the order in which
they were appended; the device works on the first of them unless the holder of `idelock` is
about to start it.
-/
namespace Osce.Ide
open Osce.Lib Function List
set_option linter.unusedSectionVars false

variable {D P : Type} [DecidableEq P]

/-- A buffer in the queue: its command and the next buffer. -/
def State.link (s : State P D) (a : Nat) : Option (Command D × Nat) := some ((s.bufs a).command,(s.bufs a).qnext)

/-- In `ideintr`, before the request is taken off the queue. -/
def Pc.Handles : Pc → Prop
  | .wantsIntr => True
  | .intr => True
  | _ => False

/-- In `iderw`, with its request appended and not seen to be finished. -/
def Pc.Waits (b : Nat) : Pc → Prop
  | .start b' => b' = b
  | .wait b' => b' = b
  | .asleep b' => b' = b
  | .wakes b' => b' = b
  | _ => False

section
variable (s : State P D) (queue : List (Nat × Command D)) (q : P)

structure Fresh (b : Nat) : Prop where
  mine : s.holder b = some q
  real : b ≠ 0
  out : b ∉ addrs queue
  todo : (s.bufs b).done = false

def Pc.Fits : Pc → Prop
  | .wants b => Fresh s queue q b
  | .append b => Fresh s queue q b
  | .walk b pp => Fresh s queue q b ∧ (s.bufs b).qnext = 0 ∧ (pp = 0 ∨ pp ∈ addrs queue)
  | .start b => s.holder b = some q ∧ (s.device = none ↔ s.idequeue = b)
  | .wait b => s.holder b = some q
  | .asleep b => s.holder b = some q
  | .wakes b => s.holder b = some q
  | .done b => s.holder b = some q ∧ (s.bufs b).done = true ∧ b ∉ addrs queue
  | .intrStart => s.device = none
  | _ => True

end

structure Inv (s : State P D) (queue : List (Nat × Command D)) : Prop where
  inside : Guards s.lock fun q => (s.pc q).Inside
  chain : Chain s.link s.idequeue queue
  appended : s.appended = s.finished ++ queue
  started : s.started = s.finished ++ if s.device.isSome then queue.take 1 else []
  device : ∀ c phase, s.device = some (c,phase) → ∃ a rest, queue = (a,c) :: rest
  idle : s.device = none → queue ≠ [] → ∃ q, s.pc q = .intrStart ∨ s.pc q = .start s.idequeue
  handles : ∀ q, (s.pc q).Handles ↔ ∃ c, s.device = some (c,.delivered q)
  todo : ∀ a ∈ addrs queue, (s.bufs a).done = false
  waits : ∀ a ∈ addrs queue, ∃ q, (s.pc q).Waits a
  fits : ∀ q, (s.pc q).Fits s queue q

section
variable {s s' : State P D} {queue queue' : List (Nat × Command D)} {q : P} {pc : Pc}

theorem Pc.Fits.holder {b : Nat} (fits : pc.Fits s queue q) (waits : pc.Waits b) : s.holder b = some q := by
  cases pc <;> first | exact waits.elim | (cases waits; first | exact fits.1 | exact fits)

theorem Pc.Fits.same (fits : pc.Fits s queue q) (first : s'.idequeue = s.idequeue) (device : s'.device = none ↔ s.device = none)
    (held : ∀ b, s.holder b = some q → s'.holder b = some q ∧ s'.bufs b = s.bufs b) : pc.Fits s' queue q := by
  have fresh {b : Nat} (fresh : Fresh s queue q b) : Fresh s' queue q b := by
    obtain ⟨mine,same⟩ := held b fresh.mine
    exact ⟨mine,fresh.real,fresh.out,by rw [same]; exact fresh.todo⟩
  cases pc with
  | wants b => exact fresh fits
  | append b => exact fresh fits
  | walk b pp =>
    refine ⟨fresh fits.1,?_,fits.2.2⟩
    rw [(held b fits.1.mine).2]
    exact fits.2.1
  | start b =>
    refine ⟨(held b fits.1).1,?_⟩
    rw [device,first]
    exact fits.2
  | wait b => exact (held b fits).1
  | asleep b => exact (held b fits).1
  | wakes b => exact (held b fits).1
  | done b =>
    obtain ⟨mine,same⟩ := held b fits.1
    exact ⟨mine,by rw [same]; exact fits.2.1,fits.2.2⟩
  | intrStart => exact device.mpr fits
  | _ => trivial

/-- A call that does not have the lock depends only on the buffer that it is about to append. -/
theorem Pc.Fits.outside (fits : pc.Fits s queue q) (outside : ¬ pc.Inside) (holder : s'.holder = s.holder)
    (held : ∀ b, s.holder b = some q → b ∉ addrs queue → s'.bufs b = s.bufs b ∧ b ∉ addrs queue') : pc.Fits s' queue' q := by
  cases pc with
  | wants b =>
    obtain ⟨same,out⟩ := held b fits.mine fits.out
    exact ⟨by rw [holder]; exact fits.mine,fits.real,out,by rw [same]; exact fits.todo⟩
  | asleep b => exact (congrFun holder b).trans fits
  | wakes b => exact (congrFun holder b).trans fits
  | append b => exact absurd trivial outside
  | walk b pp => exact absurd trivial outside
  | start b => exact absurd trivial outside
  | wait b => exact absurd trivial outside
  | done b => exact absurd trivial outside
  | intrStart => exact absurd trivial outside
  | _ => trivial

theorem Inv.out (inv : Inv s queue) {b : Nat} (here : s.pc q = .outside) (mine : s.holder b = none ∨ s.holder b = some q) :
    b ∉ addrs queue := by
  intro isIn
  obtain ⟨r,waits⟩ := inv.waits b isIn
  have holder := (inv.fits r).holder waits
  rcases mine with free | mine
  · rw [free] at holder
    cases holder
  · rw [mine] at holder
    cases holder
    rw [here] at waits
    exact waits

/-- The queue is empty when the device is idle and the holder of the lock is not about to start it. -/
theorem Inv.settled (inv : Inv s queue) (none : s.device = none) (nobody : ∀ r, s.pc r ≠ .intrStart ∧ ∀ b, s.pc r ≠ .start b) :
    queue = [] := by
  by_contra some
  obtain ⟨r,starts | starts⟩ := inv.idle none some
  · exact (nobody r).1 starts
  · exact (nobody r).2 _ starts

theorem Inv.others (inv : Inv s queue) (here : (s.pc q).Inside) (r : P) (other : r ≠ q) : ¬ (s.pc r).Inside := by
  intro there
  exact other (inv.inside.alone here there)

theorem Inv.quiet (inv : Inv s queue) {lock : Option P} {old : Pc} (here : s.pc q = old)
    (inside : Guards lock fun r => (update s.pc q pc r).Inside) (handles : pc.Handles ↔ old.Handles)
    (waits : ∀ b ∈ addrs queue, old.Waits b → pc.Waits b)
    (idle : s.device = none → queue ≠ [] → old ≠ .intrStart ∧ old ≠ .start s.idequeue) (fits : pc.Fits s queue q) :
    Inv { s.goto q pc with lock := lock } queue where
  inside := inside
  chain := inv.chain
  appended := inv.appended
  started := inv.started
  device := inv.device
  idle := fun none some => by
    obtain ⟨r,starts⟩ := inv.idle none some
    have other : r ≠ q := by
      rintro rfl
      rw [here] at starts
      exact starts.elim (idle none some).1 (idle none some).2
    exact ⟨r,by simpa [State.goto,update_of_ne other] using starts⟩
  handles := fun r => by
    by_cases same : r = q
    · rw [same]
      simp only [State.goto,update_self]
      rw [handles,← here]
      exact inv.handles q
    · simp only [State.goto,update_of_ne same]
      exact inv.handles r
  todo := inv.todo
  waits := fun a isIn => by
    obtain ⟨r,there⟩ := inv.waits a isIn
    by_cases same : r = q
    · rw [same,here] at there
      exact ⟨q,by simpa [State.goto] using waits a isIn there⟩
    · exact ⟨r,by simpa [State.goto,update_of_ne same] using there⟩
  fits := fun r => by
    by_cases same : r = q
    · rw [same]
      simp only [State.goto,update_self]
      exact fits.same rfl Iff.rfl fun _ mine => ⟨mine,rfl⟩
    · simp only [State.goto,update_of_ne same]
      exact (inv.fits r).same rfl Iff.rfl fun _ mine => ⟨mine,rfl⟩

theorem Enters.spec {pc' : Pc} (enters : Enters pc pc') (fits : pc.Fits s queue q) :
    ¬ pc.Inside ∧ pc'.Inside ∧ (pc'.Handles ↔ pc.Handles) ∧ (∀ b, pc.Waits b → pc'.Waits b) ∧ pc'.Fits s queue q := by
  cases enters with
  | append => exact ⟨id,trivial,Iff.rfl,fun _ => id,fits⟩
  | wait => exact ⟨id,trivial,Iff.rfl,fun _ => id,fits⟩
  | intr => exact ⟨id,trivial,Iff.rfl,fun _ => id,trivial⟩

theorem Last.spec (last : Last pc) : pc.Inside ∧ ¬ pc.Handles ∧ ∀ b, ¬ pc.Waits b := by
  cases last <;> exact ⟨trivial,id,fun _ => id⟩

theorem not_starts (outside : ¬ (s.pc q).Inside) : s.pc q ≠ .intrStart ∧ s.pc q ≠ .start s.idequeue := by
  refine ⟨fun same => outside ?_,fun same => outside ?_⟩
  · rw [same]
    trivial
  · rw [same]
    trivial

theorem Inv.buffer (inv : Inv s queue) {b : Nat} (v : Buf D) (holder : Option P) (here : s.pc q = .outside)
    (mine : s.holder b = none ∨ s.holder b = some q) :
    Inv { s.setBuf b v with holder := update s.holder b holder } queue where
  inside := inv.inside
  chain := inv.chain.congr fun a isIn => by
    have other : a ≠ b := fun same => inv.out here mine (same ▸ isIn)
    simp [State.link,State.setBuf,update_of_ne other]
  appended := inv.appended
  started := inv.started
  device := inv.device
  idle := inv.idle
  handles := inv.handles
  todo := fun a isIn => by
    have other : a ≠ b := fun same => inv.out here mine (same ▸ isIn)
    simpa [State.setBuf,update_of_ne other] using inv.todo a isIn
  waits := inv.waits
  fits := fun r => by
    by_cases same : r = q
    · rw [same]
      simp only [State.setBuf,here]
      trivial
    · refine (inv.fits r).same rfl Iff.rfl fun b' holds => ?_
      have other : b' ≠ b := by
        rintro rfl
        rw [holds] at mine
        exact mine.elim nofun fun h => same (Option.some.inj h)
      exact ⟨by simpa [update_of_ne other] using holds,update_of_ne other ..⟩

theorem Inv.raises (inv : Inv s queue) {c : Command D} (working : s.device = some (c,.working)) :
    Inv { s with device := some (c,.raised) } queue where
  inside := inv.inside
  chain := inv.chain
  appended := inv.appended
  started := by
    have started := inv.started
    rw [working] at started
    exact started
  device := fun c' phase same => by
    cases same
    exact inv.device c _ working
  idle := nofun
  handles := fun r => by
    rw [inv.handles r,working]
    simp
  todo := inv.todo
  waits := inv.waits
  fits := fun r => (inv.fits r).same rfl (by simp [working]) fun _ mine => ⟨mine,rfl⟩

theorem Inv.delivers (inv : Inv s queue) {c : Command D} (here : s.pc q = .outside) (raised : s.device = some (c,.raised)) :
    Inv { s.goto q .wantsIntr with device := some (c,.delivered q) } queue where
  inside := inv.inside.stays (q := q) (by simp [State.goto,here,Pc.Inside]) fun r other => by
    simp [State.goto,update_of_ne other]
  chain := inv.chain
  appended := inv.appended
  started := by
    have started := inv.started
    rw [raised] at started
    exact started
  device := fun c' phase same => by
    cases same
    exact inv.device c _ raised
  idle := nofun
  handles := fun r => by
    by_cases same : r = q
    · rw [same]
      simp [State.goto,Pc.Handles]
    · have nobody := inv.handles r
      rw [raised] at nobody
      simp only [State.goto,update_of_ne same,nobody]
      simp [Ne.symm same]
  todo := inv.todo
  waits := fun a isIn => by
    obtain ⟨r,waits⟩ := inv.waits a isIn
    have other : r ≠ q := by
      rintro rfl
      rw [here] at waits
      exact waits
    exact ⟨r,by simpa [State.goto,update_of_ne other] using waits⟩
  fits := fun r => by
    by_cases same : r = q
    · rw [same]
      simp only [State.goto,update_self]
      trivial
    · simp only [State.goto,update_of_ne same]
      exact (inv.fits r).same rfl (by simp [raised]) fun _ mine => ⟨mine,rfl⟩

theorem wake_cases (b : Nat) (pc : Pc) : wake b pc = pc ∨ ∃ a, pc = .asleep a ∧ wake b pc = .wakes a := by
  cases pc with
  | asleep a =>
    simp only [wake]
    split
    · exact .inr ⟨a,rfl,rfl⟩
    · exact .inl rfl
  | _ => exact .inl rfl

def Stay (s s' : State P D) (q : P) : Prop := ∀ r, r ≠ q → s'.pc r = s.pc r ∨ ∃ a, s.pc r = .asleep a ∧ s'.pc r = .wakes a

theorem Stay.goto {f : P → Pc} (same : f = s.pc) (moved : s'.pc = update f q pc) : Stay s s' q :=
  fun r other => .inl (by rw [moved,update_of_ne other,same])

/-- A step of the call that has the lock. The others wait or are about to append a buffer. -/
theorem Inv.inner (inv : Inv s queue) (here : (s.pc q).Inside) (still : (s'.pc q).Inside) (stay : Stay s s' q)
    (lock : s'.lock = s.lock) (holder : s'.holder = s.holder)
    (chain : Chain s'.link s'.idequeue queue') (appended : s'.appended = s'.finished ++ queue')
    (started : s'.started = s'.finished ++ if s'.device.isSome then queue'.take 1 else [])
    (device : ∀ c phase, s'.device = some (c,phase) → ∃ a rest, queue' = (a,c) :: rest)
    (idle : s'.device = none → queue' ≠ [] → s'.pc q = .intrStart ∨ s'.pc q = .start s'.idequeue)
    (handles : ¬ (s'.pc q).Handles ∧ ∀ r, (∃ c, s'.device = some (c,.delivered r)) ↔ r ≠ q ∧ (s.pc r).Handles)
    (todo : ∀ a ∈ addrs queue', (s'.bufs a).done = false)
    (waits : ∀ a ∈ addrs queue', (s'.pc q).Waits a ∨ a ∈ addrs queue ∧ ¬ (s.pc q).Waits a) (fits : (s'.pc q).Fits s' queue' q)
    (held : ∀ b, s.holder b ≠ some q → b ∉ addrs queue → s'.bufs b = s.bufs b ∧ b ∉ addrs queue') : Inv s' queue' := by
  have elsewhere {f : Pc → Prop} (wakes : ∀ a, f (.wakes a) ↔ f (.asleep a)) (r : P) (other : r ≠ q) : f (s'.pc r) ↔ f (s.pc r) := by
    rcases stay r other with same | ⟨a,was,woken⟩
    · rw [same]
    · rw [was,woken,wakes]
  refine ⟨?_,chain,appended,started,device,fun none some => ⟨q,idle none some⟩,fun r => ?_,todo,fun a isIn => ?_,fun r => ?_⟩
  · rw [lock]
    exact inv.inside.stays (iff_of_true still here) (elsewhere fun _ => Iff.rfl)
  · by_cases same : r = q
    · rw [handles.2,same]
      exact ⟨fun h => absurd h handles.1,fun h => absurd rfl h.1⟩
    · rw [handles.2,elsewhere (f := Pc.Handles) (fun _ => Iff.rfl) r same]
      exact ⟨fun h => ⟨same,h⟩,fun h => h.2⟩
  · rcases waits a isIn with mine | ⟨was,other⟩
    · exact ⟨q,mine⟩
    · obtain ⟨r,there⟩ := inv.waits a was
      have apart : r ≠ q := fun same => other (same ▸ there)
      exact ⟨r,(elsewhere (f := Pc.Waits a) (fun _ => Iff.rfl) r apart).mpr there⟩
  · by_cases same : r = q
    · rw [same]
      exact fits
    · have framed : (s.pc r).Fits s' queue' r := by
        refine (inv.fits r).outside (inv.others here r same) holder fun b mine out => held b ?_ out
        rw [mine]
        exact fun h => same (Option.some.inj h)
      exact (elsewhere (f := Pc.Fits s' queue' r) (fun _ => Iff.rfl) r same).mpr framed

theorem Inv.settled_inside (inv : Inv s queue) (here : (s.pc q).Inside) (none : s.device = none)
    (mine : s.pc q ≠ .intrStart ∧ ∀ b, s.pc q ≠ .start b) : queue = [] := by
  refine inv.settled none fun r => ?_
  by_cases same : r = q
  · rw [same]
    exact mine
  · have outside := inv.others here r same
    exact ⟨(not_starts outside).1,fun b h => outside (by rw [h]; trivial)⟩

theorem Inv.handles_other (inv : Inv s queue) (gone : ¬ (s.pc q).Handles) (r : P) :
    (∃ c, s.device = some (c,.delivered r)) ↔ r ≠ q ∧ (s.pc r).Handles := by
  rw [← inv.handles r]
  refine ⟨fun h => ⟨?_,h⟩,fun h => h.2⟩
  rintro rfl
  exact gone h

theorem Inv.clears (inv : Inv s queue) {b : Nat} (here : s.pc q = .append b) :
    Inv ((s.setBuf b { s.bufs b with qnext := 0 }).goto q (.walk b 0)) queue := by
  have fresh := inv.fits q
  have inside : (s.pc q).Inside := by
    rw [here]
    trivial
  rw [here] at fresh
  have pc : ((s.setBuf b { s.bufs b with qnext := 0 }).goto q (.walk b 0)).pc q = .walk b 0 := update_self ..
  have bufs {a : Nat} (other : a ≠ b) : ((s.setBuf b { s.bufs b with qnext := 0 }).goto q (.walk b 0)).bufs a = s.bufs a :=
    update_of_ne other ..
  have apart {a : Nat} (isIn : a ∈ addrs queue) : a ≠ b := fun same => fresh.out (same ▸ isIn)
  refine inv.inner inside (by rw [pc]; trivial) (.goto rfl rfl) rfl rfl ?_ inv.appended inv.started inv.device ?_ ?_ ?_ ?_ ?_ ?_
  · refine inv.chain.congr fun a isIn => ?_
    rw [State.link,bufs (apart isIn)]
    rfl
  · intro none some
    exact absurd (inv.settled_inside inside none (by rw [here]; exact ⟨nofun,nofun⟩)) some
  · rw [pc]
    exact ⟨id,inv.handles_other (by rw [here]; exact id)⟩
  · intro a isIn
    rw [bufs (apart isIn)]
    exact inv.todo a isIn
  · exact fun a isIn => .inr ⟨isIn,by rw [here]; exact id⟩
  · rw [pc]
    refine ⟨⟨fresh.mine,fresh.real,fresh.out,?_⟩,?_,.inl rfl⟩
    · simpa [State.goto,State.setBuf,Buf.done] using fresh.todo
    · simp [State.goto,State.setBuf]
  · exact fun b' other out => ⟨bufs fun same => other (same ▸ fresh.mine),out⟩

theorem Inv.setPointee (inv : Inv s queue) {b pp : Nat} (here : s.pc q = .walk b pp) (last : s.pointee pp = 0) :
    Chain (s.setPointee pp b).link (s.setPointee pp b).idequeue (queue ++ [(b,(s.bufs b).command)]) := by
  have fits := inv.fits q
  rw [here] at fits
  obtain ⟨fresh,ends,place⟩ := fits
  unfold State.pointee at last
  unfold State.setPointee
  by_cases zero : pp = 0
  · rw [if_pos zero] at last ⊢
    have nothing : queue = [] := inv.chain.unique (show Chain s.link s.idequeue [] from last)
    rw [nothing]
    exact ⟨rfl,fresh.real,0,by rw [← ends]; rfl,rfl⟩
  · rw [if_neg zero] at last ⊢
    have isIn := place.resolve_left zero
    have apart : pp ≠ b := fun same => fresh.out (same ▸ isIn)
    obtain ⟨before,rfl⟩ := inv.chain.last isIn (show s.link pp = some ((s.bufs pp).command,0) by rw [State.link,last])
    have nodup := inv.chain.nodup
    rw [addrs_append] at nodup
    refine inv.chain.append_last (fun a earlier => ?_) ?_ fresh.real ?_
    · have other : a ≠ pp := by
        rintro rfl
        exact (nodup_append.mp nodup).2.2 a earlier a (by simp) rfl
      simp [State.link,State.setBuf,update_of_ne other]
    · simp [State.link,State.setBuf,Buf.command]
    · simp [State.link,State.setBuf,update_of_ne (Ne.symm apart),ends]

section
variable (s : State P D) (pp b : Nat)

@[simp] theorem setPointee_pc : (s.setPointee pp b).pc = s.pc := by unfold State.setPointee; split <;> rfl
@[simp] theorem setPointee_lock : (s.setPointee pp b).lock = s.lock := by unfold State.setPointee; split <;> rfl
@[simp] theorem setPointee_device : (s.setPointee pp b).device = s.device := by unfold State.setPointee; split <;> rfl
@[simp] theorem setPointee_holder : (s.setPointee pp b).holder = s.holder := by unfold State.setPointee; split <;> rfl
@[simp] theorem setPointee_started : (s.setPointee pp b).started = s.started := by unfold State.setPointee; split <;> rfl
@[simp] theorem setPointee_finished : (s.setPointee pp b).finished = s.finished := by unfold State.setPointee; split <;> rfl

theorem setPointee_bufs {a : Nat} (other : a ≠ pp) : (s.setPointee pp b).bufs a = s.bufs a := by
  unfold State.setPointee
  split
  · rfl
  · exact update_of_ne other ..

theorem setPointee_done (a : Nat) : ((s.setPointee pp b).bufs a).done = (s.bufs a).done := by
  by_cases other : a = pp
  · unfold State.setPointee
    split
    · rfl
    · simp [State.setBuf,other,Buf.done]
  · rw [setPointee_bufs s pp b other]

end

theorem Inv.appends (inv : Inv s queue) {b pp : Nat} (here : s.pc q = .walk b pp) (last : s.pointee pp = 0) :
    Inv { (s.setPointee pp b).goto q (.start b) with appended := s.appended ++ [(b,(s.bufs b).command)] }
      (queue ++ [(b,(s.bufs b).command)]) := by
  have chain := inv.setPointee here last
  have inside : (s.pc q).Inside := by
    rw [here]
    trivial
  have settled (none : s.device = none) : queue = [] := inv.settled_inside inside none (by rw [here]; exact ⟨nofun,nofun⟩)
  have fits := inv.fits q
  rw [here] at fits
  obtain ⟨fresh,ends,place⟩ := fits
  have pc : ((s.setPointee pp b).goto q (.start b)).pc q = .start b := update_self ..
  -- the device is idle exactly when the new request is the first
  have first : s.device = none ↔ (s.setPointee pp b).idequeue = b := by
    constructor
    · intro none
      rw [settled none] at chain
      exact chain.1
    · intro isFirst
      rcases queue with _ | ⟨⟨a,c⟩,rest⟩
      · by_contra busy
        obtain ⟨⟨c,phase⟩,isSome⟩ := Option.ne_none_iff_exists'.mp busy
        obtain ⟨a,rest,none⟩ := inv.device c phase isSome
        cases none
      · exact absurd (isFirst.symm.trans chain.1) fun same => fresh.out (by rw [same]; exact mem_cons_self)
  refine inv.inner inside (by rw [pc]; trivial) (.goto (setPointee_pc ..) rfl) (setPointee_lock ..) (setPointee_holder ..)
    chain ?_ ?_ ?_ ?_ ?_ ?_ ?_ ?_ ?_
  · simp [State.goto,inv.appended]
  · have started := inv.started
    simp only [State.goto,setPointee_started,setPointee_finished,setPointee_device]
    rw [started]
    cases device : s.device with
    | none => rfl
    | some busy =>
      obtain ⟨a,rest,isCons⟩ := inv.device busy.1 busy.2 device
      rw [isCons]
      rfl
  · intro c phase busy
    obtain ⟨a,rest,isCons⟩ := inv.device c phase (by simpa [State.goto] using busy)
    exact ⟨a,rest ++ [(b,(s.bufs b).command)],by rw [isCons]; rfl⟩
  · intro none _
    refine .inr ?_
    rw [pc]
    exact congrArg Pc.start (first.mp (by simpa [State.goto] using none)).symm
  · rw [pc]
    refine ⟨id,fun r => ?_⟩
    simp only [State.goto,setPointee_device]
    exact inv.handles_other (by rw [here]; exact id) r
  · intro a isIn
    simp only [State.goto,setPointee_done]
    rw [addrs_append,mem_append] at isIn
    rcases isIn with earlier | isNew
    · exact inv.todo a earlier
    · rw [mem_singleton.mp isNew]
      exact fresh.todo
  · intro a isIn
    rw [addrs_append,mem_append] at isIn
    rcases isIn with earlier | isNew
    · exact .inr ⟨earlier,by rw [here]; exact id⟩
    · refine .inl ?_
      rw [pc]
      exact (mem_singleton.mp isNew).symm
  · rw [pc]
    refine ⟨?_,?_⟩
    · simpa [State.goto] using fresh.mine
    · simpa [State.goto] using first
  · intro b' other out
    refine ⟨?_,?_⟩
    · by_cases same : b' = pp
      · -- only `idequeue` is stored to
        have zero : pp = 0 := place.resolve_right fun isIn => out (same ▸ isIn)
        simp [State.goto,State.setPointee,zero]
      · exact setPointee_bufs s pp b same
    · rw [addrs_append,mem_append]
      rintro (earlier | isNew)
      · exact out earlier
      · rw [mem_singleton.mp isNew] at other
        exact other fresh.mine

theorem Inv.starts (inv : Inv s queue) {b : Nat} (here : s.pc q = .start b ∧ pc = .wait b ∨ s.pc q = .intrStart ∧ pc = .intrDone)
    (first : s.idequeue = b) (real : b ≠ 0) :
    Inv { s.goto q pc with
      device := some ((s.bufs b).command,.working)
      started := s.started ++ [(b,(s.bufs b).command)] } queue := by
  have fits := inv.fits q
  have none : s.device = none := by
    rcases here with ⟨here,-⟩ | ⟨here,-⟩
    · rw [here] at fits
      exact fits.2.mpr first
    · rw [here] at fits
      exact fits
  have inside : (s.pc q).Inside ∧ pc.Inside ∧ ¬ pc.Handles ∧ pc.Fits s queue q ∧ ∀ a, (s.pc q).Waits a → pc.Waits a := by
    rcases here with ⟨here,rfl⟩ | ⟨here,rfl⟩
    · rw [here] at fits ⊢
      exact ⟨trivial,trivial,id,fits.1,fun _ => id⟩
    · rw [here]
      exact ⟨trivial,trivial,id,trivial,fun _ => id⟩
  obtain ⟨rest,isCons⟩ : ∃ rest, queue = (b,(s.bufs b).command) :: rest := by
    have chain := inv.chain
    rcases queue with _ | ⟨⟨a,c⟩,rest⟩
    · exact absurd (first.symm.trans chain) real
    · obtain ⟨isA,-,next,link,-⟩ := chain
      have same : a = b := isA.symm.trans first
      obtain ⟨rfl,-⟩ := Prod.mk.inj (Option.some.inj link)
      exact ⟨rest,by rw [same]⟩
  have nobody (r : P) : ¬ (s.pc r).Handles := fun handles => by
    obtain ⟨c,busy⟩ := (inv.handles r).mp handles
    rw [none] at busy
    cases busy
  have at_q : (s.goto q pc).pc q = pc := update_self ..
  refine inv.inner inside.1 (by rw [at_q]; exact inside.2.1) (.goto rfl rfl) rfl rfl inv.chain inv.appended ?_ ?_ nofun ?_ inv.todo ?_ ?_
    fun _ _ out => ⟨rfl,out⟩
  · have started := inv.started
    rw [none] at started
    simp [State.goto,started,isCons]
  · intro c phase same
    cases same
    exact ⟨b,rest,isCons⟩
  · rw [at_q]
    refine ⟨inside.2.2.1,fun r => ?_⟩
    simp [nobody r]
  · intro a isIn
    rw [at_q]
    by_cases waits : (s.pc q).Waits a
    · exact .inl (inside.2.2.2.2 a waits)
    · exact .inr ⟨isIn,waits⟩
  · rw [at_q]
    rcases here with ⟨-,rfl⟩ | ⟨-,rfl⟩
    · exact inside.2.2.2.1
    · trivial

theorem Inv.finishes (inv : Inv s queue) {input : Option D} (here : s.pc q = .intr) :
    ∃ rest, Inv (s.finishes q s.idequeue input) rest := by
  obtain ⟨c,busy⟩ := (inv.handles q).mp (by rw [here]; trivial)
  obtain ⟨a,rest,rfl⟩ := inv.device c _ busy
  obtain ⟨isA,real,next,link,chain⟩ := inv.chain
  obtain ⟨rfl,rfl⟩ := Prod.mk.inj (Option.some.inj link)
  have first := nodup_cons.mp inv.chain.nodup
  rw [isA]
  have bufs {b : Nat} (other : b ≠ a) : (s.finishes q a input).bufs b = s.bufs b := update_of_ne other ..
  have later {b : Nat} (isIn : b ∈ addrs rest) : b ≠ a := fun same => first.1 (same ▸ isIn)
  have pc : (s.finishes q a input).pc q = .intrStart := by simp [State.finishes]
  refine ⟨rest,inv.inner (by rw [here]; trivial) (by rw [pc]; trivial) (fun r other => ?_) rfl rfl ?_ ?_ ?_ nofun
    (fun _ _ => .inl pc) ?_ ?_ ?_ ?_ ?_⟩
  · have moved : (s.finishes q a input).pc r = wake a (s.pc r) := by simp [State.finishes,update_of_ne other]
    rw [moved]
    exact wake_cases a (s.pc r)
  · refine chain.congr fun b isIn => ?_
    rw [State.link,bufs (later isIn)]
    rfl
  · simp [State.finishes,State.setBuf,inv.appended]
  · have started := inv.started
    rw [busy] at started
    simp [State.finishes,State.setBuf,started]
  · rw [pc]
    refine ⟨id,fun r => ⟨nofun,fun ⟨other,handles⟩ => ?_⟩⟩
    obtain ⟨c',same⟩ := (inv.handles r).mp handles
    rw [busy] at same
    cases same
    exact absurd rfl other
  · intro b isIn
    rw [bufs (later isIn)]
    exact inv.todo b (mem_cons_of_mem _ isIn)
  · exact fun b isIn => .inr ⟨mem_cons_of_mem _ isIn,by rw [here]; exact id⟩
  · rw [pc]
    rfl
  · intro b _ out
    rw [addrs_cons,mem_cons,not_or] at out
    exact ⟨bufs out.1,out.2⟩

theorem Inv.next_mem (inv : Inv s queue) {pp : Nat} (place : pp = 0 ∨ pp ∈ addrs queue) (more : s.pointee pp ≠ 0) :
    s.pointee pp ∈ addrs queue := by
  unfold State.pointee at more ⊢
  split
  · rename_i zero
    rw [if_pos zero] at more
    exact inv.chain.first_mem more
  · rename_i some
    rw [if_neg some] at more
    exact inv.chain.next_mem (place.resolve_left some) rfl more

theorem Inv.step (inv : Inv s queue) (moves : Moves s s') : ∃ queue', Inv s' queue' := by
  have others {q : P} (pc : Pc) := update_others (q := q) (f := Pc.Inside) (fun _ => Iff.rfl) s.pc pc
  -- the lock stays where it is
  have stays {q : P} {old pc : Pc} (here : s.pc q = old) (same : pc.Inside ↔ old.Inside) :
      Guards s.lock fun r => (update s.pc q pc r).Inside :=
    inv.inside.stays (q := q) (by rw [update_self,here,same]) (others pc)
  have leaves {q : P} {pc : Pc} (was : (s.pc q).Inside) (gone : ¬ pc.Inside) : Guards none fun r => (update s.pc q pc r).Inside :=
    inv.inside.leaves was (by rwa [update_self]) (others pc)
  have fits {q : P} {old : Pc} (here : s.pc q = old) : old.Fits s queue q := here ▸ inv.fits q
  cases moves with
  | @buffer q b v holder here mine => exact ⟨queue,inv.buffer v holder here mine⟩
  | begins here real mine todo =>
    exact ⟨queue,inv.quiet here (stays here Iff.rfl) Iff.rfl (fun _ _ => id) (fun _ _ => ⟨nofun,nofun⟩)
      ⟨mine,real,inv.out here (.inr mine),todo⟩⟩
  | raises working => exact ⟨queue,inv.raises working⟩
  | delivers here raised => exact ⟨queue,inv.delivers here raised⟩
  | kill here =>
    have mine := fits here
    exact ⟨queue,inv.quiet here (stays here Iff.rfl) Iff.rfl (fun _ _ => id) (fun _ _ => ⟨nofun,nofun⟩) mine⟩
  | @acquires q pc enters free =>
    obtain ⟨outside,inside,handles,waits,fits⟩ := enters.spec (inv.fits q)
    refine ⟨queue,inv.quiet rfl (inv.inside.enters free ?_ (others pc)) handles (fun b _ => waits b) (fun _ _ => not_starts outside) fits⟩
    rwa [update_self]
  | @leaves q last =>
    obtain ⟨inside,handles,waits⟩ := last.spec
    refine ⟨queue,inv.quiet rfl (leaves inside id) (iff_of_false id handles) (fun b _ h => absurd h (waits b)) ?_ trivial⟩
    refine fun _ _ => ⟨fun same => ?_,fun same => ?_⟩
    · rw [same] at last
      cases last
    · rw [same] at last
      cases last
  | clears here => exact ⟨queue,inv.clears here⟩
  | walks here more =>
    obtain ⟨fresh,ends,place⟩ := fits here
    exact ⟨queue,inv.quiet here (stays here Iff.rfl) Iff.rfl (fun _ _ => id) (fun _ _ => ⟨nofun,nofun⟩)
      ⟨fresh,ends,.inr (inv.next_mem place more)⟩⟩
  | appends here last => exact ⟨_,inv.appends here last⟩
  | starts here first real => exact ⟨queue,inv.starts here first real⟩
  | queued here other =>
    obtain ⟨mine,first⟩ := fits here
    exact ⟨queue,inv.quiet here (stays here Iff.rfl) Iff.rfl (fun _ _ => id) (fun none _ => absurd (first.mp none) other) mine⟩
  | sleeps here =>
    have mine := fits here
    exact ⟨queue,inv.quiet here (leaves (here ▸ trivial) id) Iff.rfl (fun _ _ => id) (fun _ _ => ⟨nofun,nofun⟩) mine⟩
  | @ready q b here done =>
    have out : b ∉ addrs queue := fun isIn => by
      rw [inv.todo b isIn] at done
      cases done
    refine ⟨queue,inv.quiet here (stays here Iff.rfl) Iff.rfl ?_ (fun _ _ => ⟨nofun,nofun⟩) ⟨fits here,done,out⟩⟩
    rintro _ isIn rfl
    exact absurd isIn out
  | @spurious q here empty =>
    -- the handler was called for the request at the head
    obtain ⟨c,busy⟩ := (inv.handles q).mp (here ▸ trivial)
    obtain ⟨a,rest,rfl⟩ := inv.device c _ busy
    exact absurd (inv.chain.1.symm.trans empty) inv.chain.2.1
  | finishes here _ => exact inv.finishes here
  | rests here empty =>
    have nothing : queue = [] := inv.chain.unique (show Chain s.link s.idequeue [] from empty)
    exact ⟨queue,inv.quiet here (stays here Iff.rfl) Iff.rfl (fun _ _ => id) (fun _ some => absurd nothing some) trivial⟩

variable {havedisk1 : Bool} {bufs : Nat → Buf D}

theorem Reachable.inv (reachable : Reachable havedisk1 bufs s) : ∃ queue, Inv s queue := by
  refine Steps.Reachable.invariant (I := fun s => ∃ queue, Inv s queue) reachable ?_
    fun _ _ _ _ ⟨_,inv⟩ meets taken => inv.step (moves_of_step meets taken)
  exact ⟨[],fun _ => ⟨nofun,nofun⟩,rfl,rfl,rfl,nofun,fun _ some => absurd rfl some,fun _ => ⟨nofun,nofun⟩,nofun,nofun,fun _ => trivial⟩

theorem Inv.not_locked (inv : Inv s queue) (free : s.lock = none) (r : P) : ¬ (s.pc r).Inside := by
  intro inside
  have holder := (inv.inside r).mp inside
  rw [free] at holder
  cases holder

/-- In every run the queue is a list without repetitions. The device works on the request at
    its head, and exactly when there is one, except while the holder of `idelock` is about
    to start it. The requests are started and finished in the order in which they
    were appended, each once and as a write exactly if the buffer was `B_DIRTY`; and an
    `iderw` that returns has its request finished. -/
theorem disk_queue (reachable : Reachable havedisk1 bufs s) :
    ∃ queue, Chain s.link s.idequeue queue ∧ (addrs queue).Nodup ∧
      (∀ c phase, s.device = some (c,phase) → queue.head?.map Prod.snd = some c) ∧
      (s.lock = none → s.device.map Prod.fst = queue.head?.map Prod.snd) ∧
      s.appended = s.finished ++ queue ∧ s.started = s.finished ++ (if s.device.isSome then queue.take 1 else []) ∧
      s.started <+: s.appended ∧ (∀ b, (s.bufs b).command.write.isSome = (s.bufs b).dirty) ∧
      ∀ q b, s.pc q = .done b → (s.bufs b).valid = true ∧ (s.bufs b).dirty = false ∧
        s.appended.filter (·.1 = b) = s.finished.filter (·.1 = b) := by
  obtain ⟨queue,inv⟩ := reachable.inv
  refine ⟨queue,inv.chain,inv.chain.nodup,?_,?_,inv.appended,inv.started,?_,?_,?_⟩
  · intro c phase busy
    obtain ⟨a,rest,rfl⟩ := inv.device c phase busy
    rfl
  · intro free
    cases device : s.device with
    | none =>
      rw [inv.settled device fun r => ?_]
      · rfl
      · have outside := inv.not_locked free r
        exact ⟨(not_starts outside).1,fun b h => outside (by rw [h]; trivial)⟩
    | some busy =>
      obtain ⟨a,rest,rfl⟩ := inv.device busy.1 busy.2 device
      rfl
  · rw [inv.started,inv.appended]
    refine (prefix_append_right_inj _).mpr ?_
    split
    · exact take_prefix 1 queue
    · exact nil_prefix
  · intro b
    cases dirty : (s.bufs b).dirty <;> simp [Buf.command,dirty]
  · intro q b here
    have fits := inv.fits q
    rw [here] at fits
    obtain ⟨-,done,out⟩ := fits
    obtain ⟨valid,clean⟩ : (s.bufs b).valid = true ∧ (s.bufs b).dirty = false := by simpa [Buf.done] using done
    refine ⟨valid,clean,?_⟩
    have nothing : queue.filter (·.1 = b) = [] :=
      filter_eq_nil_iff.mpr fun node isIn same => out (mem_addrs.mpr ⟨node,isIn,of_decide_eq_true same⟩)
    rw [inv.appended,filter_append,nothing,append_nil]

/-- A read of one process, and behind it in the queue a write of another; a third process takes the interrupt of the read. -/
def twoRequests : List (Action (Option Bool) Unit) :=
  .bget (some false) 1 :: .iderw (some false) 1 :: List.replicate 5 (.turn (some false) none) ++
    .bget (some true) 2 :: .change (some true) 2 ⟨false,true,true,0,7,0,()⟩ :: .iderw (some true) 2 :: List.replicate 6 (.turn (some true) none) ++
    .raise :: .ideintr none :: List.replicate 4 (.turn none (some ())) ++ List.replicate 2 (.turn (some false) none)

theorem disk_queue_two : ∃ s, Steps.run (step false) allowed (State.init (Option Bool) fun _ => ⟨false,false,false,0,0,0,()⟩) twoRequests = some s ∧
    s.pc (some false) = .done 1 ∧ s.pc (some true) = .asleep 2 ∧ (s.bufs 1).valid = true ∧ s.started <+: s.appended ∧
    ∃ queue, Chain s.link s.idequeue queue ∧ addrs queue = [2] ∧ s.device.map Prod.fst = queue.head?.map Prod.snd := by
  have taken : ∃ s, Steps.run (step false) allowed (State.init (Option Bool) fun _ => ⟨false,false,false,0,0,0,()⟩) twoRequests = some s ∧
      s.pc (some false) = .done 1 ∧ s.pc (some true) = .asleep 2 ∧ addrs s.appended = [1,2] ∧ addrs s.finished = [1] ∧
      ∃ c phase, s.device = some (c,phase) := ⟨_,rfl,rfl,rfl,rfl,rfl,_,_,rfl⟩
  obtain ⟨s,run,here,asleep,both,first,c,phase,busy⟩ := taken
  obtain ⟨queue,chain,-,device,-,order,-,started,-,returns⟩ := disk_queue (Steps.reachable_run .start run)
  refine ⟨s,run,here,asleep,(returns (some false) 1 here).1,started,queue,chain,?_,by rw [busy,device c phase busy]; rfl⟩
  have split : addrs s.appended = addrs s.finished ++ addrs queue := by rw [order,addrs_append]
  rw [both,first] at split
  exact (cons_inj_right 1).mp split.symm

end

end Osce.Ide
