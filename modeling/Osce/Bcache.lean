import Osce.Lib.Steps
import Osce.Layout

/-!
The buffer cache of `bio.c` over the disk of `memide.c`. Any number of processes use
it, each step being what one of them does in one section under `bcache.lock`, or
alone with a buffer that it holds.
-/
namespace Osce.Bcache
open Osce.Lib Osce.Layout Function
set_option linter.unusedSectionVars false

/-- `dev` and `sector`. -/
abbrev Key := UInt32 × UInt32

structure Buf where
  busy : Bool
  valid : Bool
  dirty : Bool
  key : Key
  data : Block

abbrev BufId := Fin NBUF

/-- The device of a buffer that has held no sector yet. -/
def NODEV : UInt32 := 0xFFFFFFFF

abbrev Disk := Key → Block

inductive Pc where
  | idle
  /-- At `loop` in `bget`. -/
  | looking (key : Key)
  /-- Asleep on a buffer in `bget`. -/
  | asleep (b : BufId) (key : Key)
  /-- In `bread`, with the buffer that `bget` has returned. -/
  | reading (b : BufId) (key : Key)
  /-- In `bwrite`, with the buffer marked `B_DIRTY`. -/
  | writing (b : BufId)
  deriving DecidableEq

/-- The buffers, the list of them from `head.next` on, the disk and the processes. The
    rest is history: who holds which buffer, which data differs from what was stored,
    and what was stored, newest first. -/
structure State (P : Type) where
  bufs : BufId → Buf
  order : List BufId
  disk : Disk
  pc : P → Pc
  held : P → BufId → Bool
  unsaved : BufId → Bool
  stores : List (Key × Block)

variable {P : Type} [DecidableEq P]

def lastStored (disk : Disk) (stores : List (Key × Block)) (key : Key) : Block :=
  ((stores.find? fun e => e.1 = key).map Prod.snd).getD (disk key)

def State.init (P : Type) (disk : Disk) : State P where
  bufs := fun _ => ⟨false,false,false,(NODEV,0),Bytes.zero BSIZE⟩
  order := (List.finRange NBUF).reverse
  disk := disk
  pc := fun _ => .idle
  held := fun _ _ => false
  unsaved := fun _ => false
  stores := []

/-- Sync buf with disk. If `B_DIRTY` is set, write buf to disk, clear `B_DIRTY`, set
    `B_VALID`. Else if `B_VALID` is not set, read buf from disk, set `B_VALID`. -/
def iderw (disksize : Nat) (disk : Disk) (b : Buf) : Except String (Disk × Buf) :=
  if b.busy = false then .error "iderw: buf not busy"
  else if b.valid = true ∧ b.dirty = false then .error "iderw: nothing to do"
  else if b.key.1 ≠ 1 then .error "iderw: request not for disk 1"
  else if b.key.2.toNat ≥ disksize then .error "iderw: sector out of range"
  else if b.dirty then .ok (Function.update disk b.key b.data,{ b with dirty := false, valid := true })
  else .ok (disk,{ b with data := disk b.key, valid := true })

def State.cached (s : State P) (key : Key) : Option BufId := s.order.find? fun b => (s.bufs b).key = key

/-- The buffer that `bget` recycles: from the end of the list, neither busy nor dirty. -/
def State.victim (s : State P) : Option BufId := s.order.reverse.find? fun b => !(s.bufs b).busy && !(s.bufs b).dirty

def State.setBuf (s : State P) (b : BufId) (v : Buf) : State P := { s with bufs := Function.update s.bufs b v }
def State.setPc (s : State P) (p : P) (pc : Pc) : State P := { s with pc := Function.update s.pc p pc }
def State.setHeld (s : State P) (p : P) (b : BufId) (v : Bool) : State P :=
  { s with held := Function.update s.held p (Function.update (s.held p) b v) }
def State.setUnsaved (s : State P) (b : BufId) (v : Bool) : State P :=
  { s with unsaved := Function.update s.unsaved b v }

def State.wakeup (s : State P) (b : BufId) : State P :=
  { s with pc := fun p =>
      match s.pc p with
      | .asleep b' key => if b' = b then .looking key else .asleep b' key
      | pc => pc }

open State

inductive Action (P : Type) where
  | bread (p : P) (key : Key)
  /-- One pass of `bget` from `loop` on. -/
  | bget (p : P)
  /-- The process is made runnable by `kill`. -/
  | kill (p : P)
  /-- The rest of `bread`, once `bget` has returned. -/
  | fill (p : P)
  /-- The process changes the data of a buffer that it holds. -/
  | modify (p : P) (b : BufId) (data : Block)
  | log_write (p : P) (b : BufId)
  | bwrite (p : P) (b : BufId)
  | iderw (p : P)
  | brelse (p : P) (b : BufId)

/-- One step, where the process stands at its start: the new state, or the message of
    a panic. A process uses only buffers that it holds, and releases none whose data
    it has changed without passing it to `log_write` or `bwrite`. -/
def step (disksize : Nat) (s : State P) : Action P → Option (Except String (State P))
  | .bread p key => if s.pc p = .idle then some (.ok (s.setPc p (.looking key))) else none
  | .bget p =>
    match s.pc p with
    | .looking key =>
      match s.cached key with
      -- Is the sector already cached?
      | some b =>
        if (s.bufs b).busy = false then
          some (.ok (((s.setBuf b { s.bufs b with busy := true }).setHeld p b true).setPc p (.reading b key)))
        else some (.ok (s.setPc p (.asleep b key)))
      -- Not cached; recycle some non-busy and clean buffer.
      | none =>
        match s.victim with
        | some b =>
          let recycled := { s.bufs b with key := key, busy := true, valid := false, dirty := false }
          some (.ok (((s.setBuf b recycled).setHeld p b true).setPc p (.reading b key)))
        | none => some (.error "bget: no buffers")
    | _ => none
  | .kill p =>
    match s.pc p with
    | .asleep _ key => some (.ok (s.setPc p (.looking key)))
    | _ => none
  | .fill p =>
    match s.pc p with
    | .reading b _ =>
      if (s.bufs b).valid then some (.ok (s.setPc p .idle))
      else
        match Bcache.iderw disksize s.disk (s.bufs b) with
        | .ok (disk,v) => some (.ok (({ s with disk := disk }.setBuf b v).setPc p .idle))
        | .error message => some (.error message)
    | _ => none
  | .modify p b data =>
    if s.pc p = .idle ∧ s.held p b = true then
      some (.ok ((s.setBuf b { s.bufs b with data := data }).setUnsaved b true))
    else none
  | .log_write p b =>
    if s.pc p = .idle ∧ s.held p b = true then
      some (.ok ({ s with stores := ((s.bufs b).key,(s.bufs b).data) :: s.stores }.setBuf b
        { s.bufs b with dirty := true } |>.setUnsaved b false))
    else none
  | .bwrite p b =>
    if s.pc p = .idle ∧ s.held p b = true then
      if (s.bufs b).busy = false then some (.error "bwrite")
      else some (.ok (({ s with stores := ((s.bufs b).key,(s.bufs b).data) :: s.stores }.setBuf b
        { s.bufs b with dirty := true } |>.setUnsaved b false).setPc p (.writing b)))
    else none
  | .iderw p =>
    match s.pc p with
    | .writing b =>
      match Bcache.iderw disksize s.disk (s.bufs b) with
      | .ok (disk,v) => some (.ok (({ s with disk := disk }.setBuf b v).setPc p .idle))
      | .error message => some (.error message)
    | _ => none
  | .brelse p b =>
    if s.pc p = .idle ∧ s.held p b = true ∧ s.unsaved b = false then
      if (s.bufs b).busy = false then some (.error "brelse")
      else some (.ok ((({ s with order := b :: s.order.erase b }.setBuf b
        { s.bufs b with busy := false }).setHeld p b false).wakeup b))
    else none

def Reachable (disksize : Nat) (disk : Disk) : State P → Prop :=
  Steps.Reachable (step disksize) (fun _ _ => True) (State.init P disk)

inductive Moves (disksize : Nat) (s : State P) : Action P → State P → Prop where
  | bread {p : P} {key : Key} (here : s.pc p = .idle) : Moves disksize s (.bread p key) (s.setPc p (.looking key))
  | hit {p : P} {key : Key} {b : BufId} (here : s.pc p = .looking key) (found : s.cached key = some b)
      (free : (s.bufs b).busy = false) :
      Moves disksize s (.bget p)
        (((s.setBuf b { s.bufs b with busy := true }).setHeld p b true).setPc p (.reading b key))
  | sleep {p : P} {key : Key} {b : BufId} (here : s.pc p = .looking key) (found : s.cached key = some b) :
      Moves disksize s (.bget p) (s.setPc p (.asleep b key))
  | recycle {p : P} {key : Key} {b : BufId} (here : s.pc p = .looking key) (missing : s.cached key = none)
      (found : s.victim = some b) :
      Moves disksize s (.bget p) (((s.setBuf b { s.bufs b with key := key, busy := true, valid := false, dirty := false
        }).setHeld p b true).setPc p (.reading b key))
  | kill {p : P} {key : Key} {b : BufId} (here : s.pc p = .asleep b key) :
      Moves disksize s (.kill p) (s.setPc p (.looking key))
  | ready {p : P} {key : Key} {b : BufId} (here : s.pc p = .reading b key) (valid : (s.bufs b).valid = true) :
      Moves disksize s (.fill p) (s.setPc p .idle)
  | load {p : P} {key : Key} {b : BufId} {disk : Disk} {v : Buf} (here : s.pc p = .reading b key)
      (invalid : (s.bufs b).valid = false) (done : Bcache.iderw disksize s.disk (s.bufs b) = .ok (disk,v)) :
      Moves disksize s (.fill p) (({ s with disk := disk }.setBuf b v).setPc p .idle)
  | modify {p : P} {b : BufId} {data : Block} (here : s.pc p = .idle) (mine : s.held p b = true) :
      Moves disksize s (.modify p b data) ((s.setBuf b { s.bufs b with data := data }).setUnsaved b true)
  | log_write {p : P} {b : BufId} (here : s.pc p = .idle) (mine : s.held p b = true) :
      Moves disksize s (.log_write p b) ({ s with stores := ((s.bufs b).key,(s.bufs b).data) :: s.stores }.setBuf b
        { s.bufs b with dirty := true } |>.setUnsaved b false)
  | bwrite {p : P} {b : BufId} (here : s.pc p = .idle) (mine : s.held p b = true) :
      Moves disksize s (.bwrite p b) (({ s with stores := ((s.bufs b).key,(s.bufs b).data) :: s.stores }.setBuf b
        { s.bufs b with dirty := true } |>.setUnsaved b false).setPc p (.writing b))
  | iderw {p : P} {b : BufId} {disk : Disk} {v : Buf} (here : s.pc p = .writing b)
      (done : Bcache.iderw disksize s.disk (s.bufs b) = .ok (disk,v)) :
      Moves disksize s (.iderw p) (({ s with disk := disk }.setBuf b v).setPc p .idle)
  | brelse {p : P} {b : BufId} (here : s.pc p = .idle) (mine : s.held p b = true) (saved : s.unsaved b = false) :
      Moves disksize s (.brelse p b) ((({ s with order := b :: s.order.erase b }.setBuf b
        { s.bufs b with busy := false }).setHeld p b false).wakeup b)

theorem moves_of_step {disksize : Nat} {s s' : State P} {a : Action P}
    (taken : step disksize s a = some (.ok s')) : Moves disksize s a s' := by
  cases a with
  | bread p key =>
    simp only [step] at taken
    split at taken
    · cases taken
      exact .bread ‹_›
    · cases taken
  | bget p =>
    simp only [step] at taken
    split at taken
    · split at taken
      · split at taken
        · cases taken
          exact .hit ‹_› ‹_› ‹_›
        · cases taken
          exact .sleep ‹_› ‹_›
      · split at taken
        · cases taken
          exact .recycle ‹_› ‹_› ‹_›
        · cases taken
    · cases taken
  | kill p =>
    simp only [step] at taken
    split at taken
    · cases taken
      exact .kill ‹_›
    · cases taken
  | fill p =>
    simp only [step] at taken
    split at taken
    · split at taken
      · cases taken
        exact .ready ‹_› ‹_›
      · split at taken
        · cases taken
          exact .load ‹_› (by simpa using ‹¬ _ = true›) ‹_›
        · cases taken
    · cases taken
  | modify p b data =>
    simp only [step] at taken
    split at taken
    · rename_i guard
      cases taken
      exact .modify guard.1 guard.2
    · cases taken
  | log_write p b =>
    simp only [step] at taken
    split at taken
    · rename_i guard
      cases taken
      exact .log_write guard.1 guard.2
    · cases taken
  | bwrite p b =>
    simp only [step] at taken
    split at taken
    · rename_i guard
      split at taken
      · cases taken
      · cases taken
        exact .bwrite guard.1 guard.2
    · cases taken
  | iderw p =>
    simp only [step] at taken
    split at taken
    · split at taken
      · cases taken
        exact .iderw ‹_› ‹_›
      · cases taken
    · cases taken
  | brelse p b =>
    simp only [step] at taken
    split at taken
    · rename_i guard
      split at taken
      · cases taken
      · cases taken
        exact .brelse guard.1 guard.2.1 guard.2.2
    · cases taken

structure Owned (s : State P) : Prop where
  busy : ∀ p b, s.held p b = true → (s.bufs b).busy = true
  someone : ∀ b, (s.bufs b).busy = true → ∃ p, s.held p b = true
  alone : ∀ p q b, s.held p b = true → s.held q b = true → p = q
  reading : ∀ p b key, s.pc p = .reading b key → s.held p b = true ∧ (s.bufs b).key = key ∧ s.unsaved b = false
  writing : ∀ p b, s.pc p = .writing b → s.held p b = true ∧ (s.bufs b).dirty = true ∧ s.unsaved b = false
  /-- A buffer that `bread` has returned. -/
  returned : ∀ p b, s.held p b = true → (∀ key, s.pc p ≠ .reading b key) → (s.bufs b).valid = true

structure Coherent (disk : Disk) (s : State P) : Prop where
  covers : ∀ b, b ∈ s.order
  unique : ∀ b b', (s.bufs b).key.1 ≠ NODEV → (s.bufs b).key = (s.bufs b').key → b = b'
  dirty : ∀ b, (s.bufs b).dirty = true → (s.bufs b).valid = true
  unsaved : ∀ b, s.unsaved b = true → (s.bufs b).busy = true ∧ (s.bufs b).valid = true
  device : ∀ b, (s.bufs b).valid = true → (s.bufs b).key.1 = 1
  current : ∀ b, (s.bufs b).valid = true → s.unsaved b = false →
    (s.bufs b).data = lastStored disk s.stores (s.bufs b).key
  /-- A sector of which no buffer is dirty is on disk. -/
  clean : ∀ key, (∀ b, (s.bufs b).key = key → (s.bufs b).dirty = false) → s.disk key = lastStored disk s.stores key

theorem owned_init (disk : Disk) : Owned (init P disk) := by
  refine ⟨?_,?_,?_,?_,?_,?_⟩ <;> simp [init]

theorem coherent_init (disk : Disk) : Coherent disk (init P disk) := by
  refine ⟨?_,?_,?_,?_,?_,?_,?_⟩
  · intro b
    simp [init]
  · intro b b' device
    exact absurd rfl device
  all_goals simp [init,lastStored]

theorem lastStored_cons (disk : Disk) (stores : List (Key × Block)) (key : Key) (data : Block) (key' : Key) :
    lastStored disk ((key,data) :: stores) key' = if key' = key then data else lastStored disk stores key' := by
  by_cases same : key' = key
  · subst same; simp [lastStored]
  · simp [lastStored,same,Ne.symm same]

section
variable {s : State P} {p : P} {b : BufId}

/-- A process moves to a point where it is neither in `bread` with a buffer nor in
    `bwrite`. -/
theorem Owned.relocate (owned : Owned s) {v : Pc} (notReading : ∀ b key, v ≠ .reading b key)
    (notWriting : ∀ b, v ≠ .writing b) (filled : ∀ b key, s.pc p = .reading b key → (s.bufs b).valid = true) :
    Owned (s.setPc p v) := by
  refine ⟨owned.busy,owned.someone,owned.alone,fun q c key here => ?_,fun q c here => ?_,fun q c mine outside => ?_⟩
  · by_cases same : q = p
    · subst same
      exact absurd (by simpa [setPc] using here) (notReading c key)
    · exact owned.reading q c key (by simpa [setPc,same] using here)
  · by_cases same : q = p
    · subst same
      exact absurd (by simpa [setPc] using here) (notWriting c)
    · exact owned.writing q c (by simpa [setPc,same] using here)
  · by_cases inBread : ∃ key, s.pc q = .reading c key
    · obtain ⟨key,here⟩ := inBread
      by_cases same : q = p
      · subst same
        exact filled c key here
      · exact absurd (by simpa [setPc,same] using here) (outside key)
    · exact owned.returned q c mine (not_exists.mp inBread)

/-- A process takes, changes or drops a buffer that nobody else holds, and moves on. -/
theorem Owned.change (owned : Owned s) {s' : State P} {v : Buf} (bufs : s'.bufs = update s.bufs b v)
    (mine : ∀ q, s.held q b = true → q = p)
    (held : ∀ q c, s'.held q c = true ↔ if c = b then q = p ∧ v.busy = true else s.held q c = true)
    (saved : ∀ c, c ≠ b → s'.unsaved c = s.unsaved c)
    (reads : ∀ q, q ≠ p → ∀ c key, s'.pc q = .reading c key ↔ s.pc q = .reading c key)
    (writes : ∀ q, q ≠ p → ∀ c, s'.pc q = .writing c → s.pc q = .writing c)
    (reading : ∀ c key, s'.pc p = .reading c key → c = b ∧ v.busy = true ∧ v.key = key ∧ s'.unsaved b = false)
    (writing : ∀ c, s'.pc p = .writing c → c = b ∧ v.busy = true ∧ v.dirty = true ∧ s'.unsaved b = false)
    (filled : ∀ c key, s.pc p = .reading c key → c = b)
    (valid : v.busy = true → (∀ key, s'.pc p ≠ .reading b key) → v.valid = true) : Owned s' := by
  have here : s'.bufs b = v := by simp [bufs]
  have there {c : BufId} (other : c ≠ b) : s'.bufs c = s.bufs c := by simp [bufs,other]
  have heldHere (q : P) : s'.held q b = true ↔ q = p ∧ v.busy = true := by simp [held]
  have heldThere {c : BufId} (other : c ≠ b) (q : P) : s'.held q c = true ↔ s.held q c = true := by simp [held,other]
  -- another process is in `bread` or `bwrite` with another buffer
  have apart {q : P} {c : BufId} (different : q ≠ p) (his : s.held q c = true) : c ≠ b := by
    rintro rfl
    exact different (mine q his)
  refine ⟨fun q c his => ?_,fun c busy => ?_,fun q r c first second => ?_,fun q c key at_q => ?_,fun q c at_q => ?_,
    fun q c his outside => ?_⟩
  · by_cases same : c = b
    · subst same
      rw [here]
      exact ((heldHere q).mp his).2
    · rw [there same]
      exact owned.busy q c ((heldThere same q).mp his)
  · by_cases same : c = b
    · subst same
      exact ⟨p,(heldHere p).mpr ⟨rfl,here ▸ busy⟩⟩
    · obtain ⟨q,his⟩ := owned.someone c (there same ▸ busy)
      exact ⟨q,(heldThere same q).mpr his⟩
  · by_cases same : c = b
    · subst same
      rw [((heldHere q).mp first).1,((heldHere r).mp second).1]
    · exact owned.alone q r c ((heldThere same q).mp first) ((heldThere same r).mp second)
  · by_cases different : q = p
    · subst different
      obtain ⟨rfl,busy,keyed,clean⟩ := reading c key at_q
      exact ⟨(heldHere q).mpr ⟨rfl,busy⟩,here ▸ keyed,clean⟩
    · obtain ⟨his,keyed,clean⟩ := owned.reading q c key ((reads q different c key).mp at_q)
      have other := apart different his
      exact ⟨(heldThere other q).mpr his,there other ▸ keyed,saved c other ▸ clean⟩
  · by_cases different : q = p
    · subst different
      obtain ⟨rfl,busy,dirty,clean⟩ := writing c at_q
      exact ⟨(heldHere q).mpr ⟨rfl,busy⟩,here ▸ dirty,clean⟩
    · obtain ⟨his,dirty,clean⟩ := owned.writing q c (writes q different c at_q)
      have other := apart different his
      exact ⟨(heldThere other q).mpr his,there other ▸ dirty,saved c other ▸ clean⟩
  · by_cases same : c = b
    · subst same
      obtain ⟨rfl,busy⟩ := (heldHere q).mp his
      exact here ▸ valid busy outside
    · rw [there same]
      refine owned.returned q c ((heldThere same q).mp his) (fun key at_q => ?_)
      by_cases different : q = p
      · subst different
        exact same (filled c key at_q)
      · exact outside key ((reads q different c key).mpr at_q)

theorem Owned.acquire (owned : Owned s) {key : Key} {v : Buf} (here : s.pc p = .looking key)
    (free : (s.bufs b).busy = false) (saved : s.unsaved b = false) (busy : v.busy = true) (named : v.key = key) :
    Owned (((s.setBuf b v).setHeld p b true).setPc p (.reading b key)) := by
  have nobody (q : P) : s.held q b = false := by
    by_contra his
    simp [owned.busy q b (by simpa using his)] at free
  refine owned.change (p := p) (b := b) rfl (by simp [nobody]) (fun q c => ?_) (by simp [setHeld,setPc,setBuf])
    (fun q other => ?_) (fun q other => ?_) (fun c key' at_p => ?_) (by simp [setPc]) (by simp [here]) (fun _ outside => ?_)
  · by_cases same : c = b
    · subst same
      by_cases me : q = p <;> simp [setHeld,setPc,setBuf,me,busy,nobody]
    · by_cases me : q = p <;> simp [setHeld,setPc,setBuf,me,same]
  · simp [setHeld,setPc,setBuf,other]
  · simp [setHeld,setPc,setBuf,other]
  · obtain ⟨rfl,rfl⟩ : b = c ∧ key = key' := by simpa [setPc] using at_p
    exact ⟨rfl,busy,named,saved⟩
  · exact absurd (by simp [setPc]) (outside key)

/-- The holder of a buffer changes it and moves on; what it was read for, and that it
    is in use, stays. -/
theorem Owned.work (owned : Owned s) (disk : Disk) (stores : List (Key × Block)) (unsaved : Bool) (pc : Pc) {v : Buf}
    (mine : s.held p b = true) (busy : v.busy = true) (valid : v.valid = true)
    (notReading : ∀ c key, pc ≠ .reading c key)
    (filled : ∀ c key, s.pc p = .reading c key → c = b)
    (writing : ∀ c, pc = .writing c → c = b ∧ v.dirty = true ∧ unsaved = false) :
    Owned (({ s with disk := disk, stores := stores }.setBuf b v |>.setUnsaved b unsaved).setPc p pc) := by
  refine owned.change (p := p) (b := b) rfl (fun q his => owned.alone q p b his mine) (fun q c => ?_)
    (fun c other => by simp [setPc,setBuf,setUnsaved,other])
    (fun q other => by simp [setPc,setBuf,setUnsaved,other])
    (fun q other => by simp [setPc,setBuf,setUnsaved,other])
    (fun c key at_p => absurd (by simpa [setPc] using at_p) (notReading c key)) (fun c at_p => ?_) filled (fun _ _ => valid)
  · by_cases same : c = b
    · subst same
      rw [if_pos rfl]
      exact ⟨fun his => ⟨owned.alone q p c his mine,busy⟩,fun ⟨me,_⟩ => me ▸ mine⟩
    · rw [if_neg same]
      rfl
  · obtain ⟨rfl,dirty,saved⟩ := writing c (by simpa [setPc] using at_p)
    exact ⟨rfl,busy,dirty,by simp [setPc,setUnsaved,saved]⟩

theorem wakeup_reading {q : P} {c : BufId} {key : Key} : (s.wakeup b).pc q = .reading c key ↔ s.pc q = .reading c key := by
  simp only [wakeup]
  split
  · rename_i asleep
    split <;> simp [asleep]
  · rfl

theorem wakeup_writing {q : P} {c : BufId} : (s.wakeup b).pc q = .writing c ↔ s.pc q = .writing c := by
  simp only [wakeup]
  split
  · rename_i asleep
    split <;> simp [asleep]
  · rfl

theorem Owned.release (owned : Owned s) {order : List BufId} (here : s.pc p = .idle) (mine : s.held p b = true) :
    Owned ((({ s with order := order }.setBuf b { s.bufs b with busy := false }).setHeld p b false).wakeup b) := by
  refine owned.change (p := p) (b := b) rfl (fun q his => owned.alone q p b his mine) (fun q c => ?_) (fun _ _ => rfl)
    (fun _ _ _ _ => wakeup_reading) (fun _ _ _ => wakeup_writing.mp) (fun c key at_p => ?_) (fun c at_p => ?_) (by simp [here])
    (by simp)
  · by_cases me : q = p
    · subst me
      by_cases same : c = b <;> simp [setHeld,wakeup,setBuf,same]
    · have other (his : s.held q c = true) : c ≠ b := by
        rintro rfl
        exact me (owned.alone q p c his mine)
      by_cases same : c = b
      · subst same
        simpa [setHeld,wakeup,setBuf,me] using fun his => other his rfl
      · simp [setHeld,wakeup,setBuf,me,same]
  · exact absurd (here.symm.trans (wakeup_reading.mp at_p)) (by simp)
  · exact absurd (here.symm.trans (wakeup_writing.mp at_p)) (by simp)

end

section
variable {disk : Disk} {s : State P} {b : BufId}

theorem bufs_setBuf (v : Buf) (c : BufId) : (s.setBuf b v).bufs c = if c = b then v else s.bufs c := by
  by_cases same : c = b <;> simp [setBuf,same]

theorem field_setBuf {α : Type} (f : Buf → α) {v : Buf} (same : f v = f (s.bufs b)) (c : BufId) :
    f ((s.setBuf b v).bufs c) = f (s.bufs c) := by
  rw [bufs_setBuf]
  split
  · rename_i here
    rw [here]
    exact same
  · rfl

theorem Coherent.congr {s' : State P} (coherent : Coherent disk s) (bufs : s'.bufs = s.bufs) (onDisk : s'.disk = s.disk)
    (covers : ∀ c, c ∈ s'.order) (unsaved : s'.unsaved = s.unsaved) (stores : s'.stores = s.stores) :
    Coherent disk s' := by
  refine ⟨covers,?_,?_,?_,?_,?_,?_⟩
  · rw [bufs]; exact coherent.unique
  · rw [bufs]; exact coherent.dirty
  · rw [bufs,unsaved]; exact coherent.unsaved
  · rw [bufs]; exact coherent.device
  · rw [bufs,unsaved,stores]; exact coherent.current
  · rw [bufs,onDisk,stores]; exact coherent.clean

theorem Coherent.saved (coherent : Coherent disk s) (free : (s.bufs b).busy = false) : s.unsaved b = false := by
  by_contra unsaved
  rw [(coherent.unsaved b (by simpa using unsaved)).1] at free
  cases free

/-- One buffer changes: it keeps its sector or gets one that is in no buffer, and what is
    stored for the sectors of the others stays. -/
theorem Coherent.change (coherent : Coherent disk s) {s' : State P} {v : Buf} (bufs : s'.bufs = update s.bufs b v)
    (covers : ∀ c, c ∈ s'.order) (others : ∀ c, c ≠ b → s'.unsaved c = s.unsaved c)
    (stored : ∀ c, c ≠ b → (s.bufs c).valid = true →
      lastStored disk s'.stores (s.bufs c).key = lastStored disk s.stores (s.bufs c).key)
    (named : v.key = (s.bufs b).key ∨ ∀ c, (s.bufs c).key ≠ v.key) (dirty : v.dirty = true → v.valid = true)
    (unsaved : s'.unsaved b = true → v.busy = true ∧ v.valid = true) (device : v.valid = true → v.key.1 = 1)
    (current : v.valid = true → s'.unsaved b = false → v.data = lastStored disk s'.stores v.key)
    (clean : ∀ key, (v.key = key → v.dirty = false) →
      (∀ c, c ≠ b → (s.bufs c).key = key → (s.bufs c).dirty = false) → s'.disk key = lastStored disk s'.stores key) :
    Coherent disk s' := by
  have here : s'.bufs b = v := by simp [bufs]
  have there {c : BufId} (other : c ≠ b) : s'.bufs c = s.bufs c := by simp [bufs,other]
  -- the sector of the changed buffer is in no other one
  have apart {c : BufId} (other : c ≠ b) (known : v.key.1 ≠ NODEV) : v.key ≠ (s.bufs c).key := by
    rcases named with same | missing
    · rw [same] at known ⊢
      exact fun equal => other (coherent.unique b c known equal).symm
    · exact (missing c).symm
  refine ⟨covers,fun c c' known equal => ?_,fun c => ?_,fun c => ?_,fun c => ?_,fun c => ?_,fun key none => ?_⟩
  · by_cases first : c = b <;> by_cases second : c' = b
    · rw [first,second]
    · subst first
      rw [here] at known equal
      exact absurd (equal.trans (congrArg Buf.key (there second))) (apart second known)
    · subst second
      rw [here] at equal
      rw [equal] at known
      exact absurd (equal.symm.trans (congrArg Buf.key (there first))) (apart first known)
    · rw [there first] at known equal
      exact coherent.unique c c' known (equal.trans (congrArg Buf.key (there second)))
  · by_cases same : c = b
    · subst same; rwa [here]
    · rw [there same]; exact coherent.dirty c
  · by_cases same : c = b
    · subst same; rwa [here]
    · rw [there same,others c same]; exact coherent.unsaved c
  · by_cases same : c = b
    · subst same; rwa [here]
    · rw [there same]; exact coherent.device c
  · by_cases same : c = b
    · subst same; rwa [here]
    · rw [there same,others c same]
      exact fun valid saved => (coherent.current c valid saved).trans (stored c same valid).symm
  · exact clean key (fun keyed => here ▸ none b (here ▸ keyed)) (fun c other keyed => there other ▸ none c (there other ▸ keyed))

theorem Coherent.cleanSector (coherent : Coherent disk s) {key : Key}
    (own : (s.bufs b).key = key → (s.bufs b).dirty = false)
    (rest : ∀ c, c ≠ b → (s.bufs c).key = key → (s.bufs c).dirty = false) : s.disk key = lastStored disk s.stores key := by
  refine coherent.clean key (fun c keyed => ?_)
  by_cases same : c = b
  · subst same
    exact own keyed
  · exact rest c same keyed

theorem Coherent.setBusy (coherent : Coherent disk s) (busy : Bool) (saved : busy = true ∨ s.unsaved b = false) :
    Coherent disk (s.setBuf b { s.bufs b with busy := busy }) := by
  refine coherent.change rfl coherent.covers (fun _ _ => rfl) (fun _ _ _ => rfl) (.inl rfl) (coherent.dirty b)
    (fun unsaved => ⟨?_,(coherent.unsaved b unsaved).2⟩) (coherent.device b) (coherent.current b)
    (fun key => coherent.cleanSector)
  rcases saved with busy | saved
  · exact busy
  · exact absurd (saved.symm.trans unsaved) (by simp)

theorem Coherent.recycle (coherent : Coherent disk s) {key : Key} (missing : ∀ c, (s.bufs c).key ≠ key)
    (free : (s.bufs b).busy = false) (clean : (s.bufs b).dirty = false) :
    Coherent disk (s.setBuf b { s.bufs b with key := key, busy := true, valid := false, dirty := false }) := by
  refine coherent.change rfl coherent.covers (fun _ _ => rfl) (fun _ _ _ => rfl) (.inr missing) (by simp) (fun unsaved => ?_)
    (by simp) (by simp) (fun key' _ rest => coherent.cleanSector (fun _ => clean) rest)
  exact absurd ((coherent.saved free).symm.trans unsaved) (by simp)

theorem Coherent.load (coherent : Coherent disk s) (invalid : (s.bufs b).valid = false)
    (device : (s.bufs b).key.1 = 1) :
    Coherent disk (s.setBuf b { s.bufs b with data := s.disk (s.bufs b).key, valid := true }) := by
  have clean : (s.bufs b).dirty = false := by
    by_contra dirty
    exact absurd (invalid.symm.trans (coherent.dirty b (by simpa using dirty))) (by simp)
  have known : (s.bufs b).key.1 ≠ NODEV := by rw [device]; decide
  refine coherent.change rfl coherent.covers (fun _ _ => rfl) (fun _ _ _ => rfl) (.inl rfl) (fun _ => rfl) (fun unsaved => ?_)
    (fun _ => device) (fun _ _ => ?_) (fun key => coherent.cleanSector)
  · exact absurd (invalid.symm.trans (coherent.unsaved b unsaved).2) (by simp)
  · refine coherent.cleanSector (fun _ => clean) (fun c other keyed => ?_)
    exact absurd (coherent.unique b c known keyed.symm).symm other

theorem Coherent.modify (coherent : Coherent disk s) {data : Block} (busy : (s.bufs b).busy = true)
    (valid : (s.bufs b).valid = true) :
    Coherent disk ((s.setBuf b { s.bufs b with data := data }).setUnsaved b true) := by
  refine coherent.change rfl coherent.covers (fun c other => ?_) (fun _ _ _ => rfl) (.inl rfl) (coherent.dirty b)
    (fun _ => ⟨busy,valid⟩) (coherent.device b) (by simp [setUnsaved]) (fun key => coherent.cleanSector)
  simp [setUnsaved,setBuf,other]

theorem Coherent.store (coherent : Coherent disk s) (valid : (s.bufs b).valid = true) :
    Coherent disk ({ s with stores := ((s.bufs b).key,(s.bufs b).data) :: s.stores }.setBuf b
      { s.bufs b with dirty := true } |>.setUnsaved b false) := by
  have known : (s.bufs b).key.1 ≠ NODEV := by rw [coherent.device b valid]; decide
  refine coherent.change rfl coherent.covers (fun c other => ?_) (fun c other _ => ?_) (.inl rfl) (fun _ => valid)
    (by simp [setUnsaved]) (coherent.device b) (fun _ _ => ?_) (fun key own rest => ?_)
  · simp [setUnsaved,setBuf,other]
  · exact (lastStored_cons ..).trans (if_neg fun equal => other (coherent.unique b c known equal.symm).symm)
  · exact ((lastStored_cons ..).trans (if_pos rfl)).symm
  · have apart : key ≠ (s.bufs b).key := fun equal => absurd (own equal.symm) (by simp)
    refine Eq.trans ?_ ((lastStored_cons ..).trans (if_neg apart)).symm
    exact coherent.cleanSector (fun keyed => absurd keyed.symm apart) rest

theorem Coherent.write (coherent : Coherent disk s) (valid : (s.bufs b).valid = true) (saved : s.unsaved b = false) :
    Coherent disk ({ s with disk := update s.disk (s.bufs b).key (s.bufs b).data }.setBuf b
      { s.bufs b with dirty := false, valid := true }) := by
  refine coherent.change rfl coherent.covers (fun _ _ => rfl) (fun _ _ _ => rfl) (.inl rfl) (by simp)
    (fun unsaved => absurd (saved.symm.trans unsaved) (by simp)) (fun _ => coherent.device b valid)
    (fun _ => coherent.current b valid) (fun key _ rest => ?_)
  show update s.disk (s.bufs b).key (s.bufs b).data key = _
  by_cases here : key = (s.bufs b).key
  · subst here
    rw [update_self]
    exact coherent.current b valid saved
  · rw [update_of_ne here]
    exact coherent.cleanSector (fun keyed => absurd keyed.symm here) rest

end

section
variable {disksize : Nat} {disk : Disk} {s s' : State P}

theorem iderw_ok {d d' : Disk} {b v : Buf} (done : iderw disksize d b = .ok (d',v)) :
    b.busy = true ∧ b.key.1 = 1 ∧
    ((b.dirty = true ∧ d' = update d b.key b.data ∧ v = { b with dirty := false, valid := true }) ∨
      (b.dirty = false ∧ d' = d ∧ v = { b with data := d b.key, valid := true })) := by
  unfold iderw at done
  split at done
  · cases done
  · split at done
    · cases done
    · split at done
      · cases done
      · split at done
        · cases done
        · rename_i busy _ device _
          refine ⟨by simpa using busy,not_not.mp device,?_⟩
          split at done
          · cases done
            exact .inl ⟨‹_›,rfl,rfl⟩
          · cases done
            exact .inr ⟨by simpa using ‹¬ b.dirty = true›,rfl,rfl⟩

theorem iderw_keeps {d d' : Disk} {b v : Buf} (done : iderw disksize d b = .ok (d',v)) :
    v.busy = true ∧ v.key = b.key ∧ v.valid = true := by
  obtain ⟨busy,_,⟨_,_,rfl⟩ | ⟨_,_,rfl⟩⟩ := iderw_ok done
  · exact ⟨busy,rfl,rfl⟩
  · exact ⟨busy,rfl,rfl⟩

theorem cached_key {key : Key} {b : BufId} (found : s.cached key = some b) : (s.bufs b).key = key := by
  simpa using List.find?_some found

theorem cached_none {key : Key} (covers : ∀ b, b ∈ s.order) (missing : s.cached key = none) (b : BufId) :
    (s.bufs b).key ≠ key := by
  simpa using List.find?_eq_none.mp missing b (covers b)

theorem victim_clean {b : BufId} (found : s.victim = some b) : (s.bufs b).busy = false ∧ (s.bufs b).dirty = false := by
  simpa using List.find?_some found

theorem setUnsaved_self (b : BufId) : s.setUnsaved b (s.unsaved b) = s := by
  simp [setUnsaved]

theorem setPc_self (p : P) {pc : Pc} (here : s.pc p = pc) : s.setPc p pc = s := by
  simp [setPc,← here]

theorem owned_moves {a : Action P} (owned : Owned s) (coherent : Coherent disk s) (moves : Moves disksize s a s') :
    Owned s' := by
  cases moves with
  | bread here => exact owned.relocate (by simp) (by simp) (by simp [here])
  | hit here found free => exact owned.acquire here free (coherent.saved free) rfl (cached_key found)
  | sleep here found => exact owned.relocate (by simp) (by simp) (by simp [here])
  | recycle here missing found =>
    have free := (victim_clean found).1
    exact owned.acquire here free (coherent.saved free) rfl rfl
  | kill here => exact owned.relocate (by simp) (by simp) (by simp [here])
  | ready here valid =>
    refine owned.relocate (by simp) (by simp) (fun c key at_c => ?_)
    rw [here] at at_c
    cases at_c
    exact valid
  | @load p key b disk' v here invalid done =>
    obtain ⟨busy,_,valid⟩ := iderw_keeps done
    have after := owned.work disk' s.stores (s.unsaved b) .idle (owned.reading p b key here).1 busy valid (by simp)
      (fun c key' at_c => by rw [here] at at_c; cases at_c; rfl) (by simp)
    rwa [show s.unsaved b = ({ s with disk := disk', stores := s.stores }.setBuf b v).unsaved b from rfl,
      setUnsaved_self] at after
  | @modify p b data here mine =>
    have after := owned.work s.disk s.stores true .idle (v := { s.bufs b with data := data }) mine (owned.busy p b mine)
      (owned.returned p b mine (by simp [here])) (by simp) (by simp [here]) (by simp)
    rwa [setPc_self p (by exact here)] at after
  | @log_write p b here mine =>
    have after := owned.work s.disk (((s.bufs b).key,(s.bufs b).data) :: s.stores) false .idle
      (v := { s.bufs b with dirty := true }) mine (owned.busy p b mine) (owned.returned p b mine (by simp [here])) (by simp)
      (by simp [here]) (by simp)
    rwa [setPc_self p (by exact here)] at after
  | @bwrite p b here mine =>
    refine owned.work s.disk (((s.bufs b).key,(s.bufs b).data) :: s.stores) false _ (v := { s.bufs b with dirty := true })
      mine (owned.busy p b mine) (owned.returned p b mine (by simp [here])) (by simp) (by simp [here]) (fun c at_c => ?_)
    cases at_c
    exact ⟨rfl,rfl,rfl⟩
  | @iderw p b disk' v here done =>
    obtain ⟨busy,_,valid⟩ := iderw_keeps done
    have after := owned.work disk' s.stores (s.unsaved b) .idle (owned.writing p b here).1 busy valid (by simp)
      (by simp [here]) (by simp)
    rwa [show s.unsaved b = ({ s with disk := disk', stores := s.stores }.setBuf b v).unsaved b from rfl,
      setUnsaved_self] at after
  | brelse here mine saved => exact owned.release here mine

theorem coherent_moves {a : Action P} (owned : Owned s) (coherent : Coherent disk s) (moves : Moves disksize s a s') :
    Coherent disk s' := by
  cases moves with
  | bread here => exact coherent.congr rfl rfl coherent.covers rfl rfl
  | hit here found free =>
    exact (coherent.setBusy _ (.inl rfl)).congr rfl rfl coherent.covers rfl rfl
  | sleep here found => exact coherent.congr rfl rfl coherent.covers rfl rfl
  | recycle here missing found =>
    obtain ⟨free,clean⟩ := victim_clean found
    exact (coherent.recycle (cached_none coherent.covers missing) free clean).congr rfl rfl coherent.covers rfl rfl
  | kill here => exact coherent.congr rfl rfl coherent.covers rfl rfl
  | ready here valid => exact coherent.congr rfl rfl coherent.covers rfl rfl
  | @load p key b disk' v here invalid done =>
    obtain ⟨_,device,⟨dirty,_,_⟩ | ⟨_,rfl,rfl⟩⟩ := iderw_ok done
    · rw [coherent.dirty b dirty] at invalid
      cases invalid
    · exact (coherent.load invalid device).congr rfl rfl coherent.covers rfl rfl
  | @modify p b data here mine =>
    exact coherent.modify (owned.busy p b mine) (owned.returned p b mine (by simp [here]))
  | @log_write p b here mine => exact coherent.store (owned.returned p b mine (by simp [here]))
  | @bwrite p b here mine =>
    exact (coherent.store (owned.returned p b mine (by simp [here]))).congr rfl rfl coherent.covers rfl rfl
  | @iderw p b disk' v here done =>
    obtain ⟨mine,dirty,saved⟩ := owned.writing p b here
    obtain ⟨_,_,⟨_,rfl,rfl⟩ | ⟨clean,_,_⟩⟩ := iderw_ok done
    · exact (coherent.write (coherent.dirty b dirty) saved).congr rfl rfl coherent.covers rfl rfl
    · rw [clean] at dirty
      cases dirty
  | @brelse p b here mine saved =>
    refine (coherent.setBusy (b := b) false (.inr saved)).congr rfl rfl (fun c => ?_) rfl rfl
    -- the buffer moves to the head of the list, and the others keep their order
    show c ∈ b :: s.order.erase b
    by_cases same : c = b
    · simp [same]
    · exact List.mem_cons_of_mem _ ((List.mem_erase_of_ne same).mpr (coherent.covers c))

theorem inv_reachable (reachable : Reachable disksize disk s) : Owned s ∧ Coherent disk s := by
  refine Steps.Reachable.invariant (I := fun s => Owned s ∧ Coherent disk s) reachable
    ⟨owned_init disk,coherent_init disk⟩ ?_
  rintro s a s' _ ⟨owned,coherent⟩ _ taken
  have moves := moves_of_step taken
  exact ⟨owned_moves owned coherent moves,coherent_moves owned coherent moves⟩

theorem pinned_moves {a : Action P} (moves : Moves disksize s a s') {b : BufId}
    (pinned : (s.bufs b).busy = true ∨ (s.bufs b).dirty = true) : (s'.bufs b).key = (s.bufs b).key := by
  have keep {c : BufId} {v : Buf} (same : v.key = (s.bufs c).key) : ((s.setBuf c v).bufs b).key = (s.bufs b).key :=
    field_setBuf Buf.key same b
  cases moves with
  | bread here => rfl
  | hit here found free => exact keep rfl
  | sleep here found => rfl
  | @recycle p key c here missing found =>
    obtain ⟨free,clean⟩ := victim_clean found
    have other : b ≠ c := by
      rintro rfl
      rw [free,clean] at pinned
      simp at pinned
    exact congrArg Buf.key ((bufs_setBuf _ b).trans (if_neg other))
  | kill here => rfl
  | ready here valid => rfl
  | load here invalid done =>
    exact keep (iderw_keeps done).2.1
  | modify here mine => exact keep rfl
  | log_write here mine => exact keep rfl
  | bwrite here mine => exact keep rfl
  | iderw here done =>
    exact keep (iderw_keeps done).2.1
  | brelse here mine saved => exact keep rfl

structure Transparent (disksize : Nat) (disk : Disk) (s : State P) : Prop where
  unique : ∀ b b', (s.bufs b).key.1 ≠ NODEV → (s.bufs b).key = (s.bufs b').key → b = b'
  alone : ∀ p q b, s.held p b = true → s.held q b = true → p = q
  busy : ∀ b, (s.bufs b).busy = true ↔ ∃ p, s.held p b = true
  /-- No step gives a busy or dirty buffer to another sector. -/
  pinned : ∀ a s', step disksize s a = some (.ok s') → ∀ b, (s.bufs b).busy = true ∨ (s.bufs b).dirty = true →
    (s'.bufs b).key = (s.bufs b).key
  /-- `bread` returns what was last stored for the sector. -/
  read : ∀ p b key s', s.pc p = .reading b key → step disksize s (.fill p) = some (.ok s') →
    (s'.bufs b).key = key ∧ (s'.bufs b).data = lastStored disk s'.stores key

/-- In every run of any number of processes the cache behaves as a flat map of sectors. -/
theorem cache_transparent (reachable : Reachable disksize disk s) : Transparent disksize disk s := by
  obtain ⟨owned,coherent⟩ := inv_reachable reachable
  refine ⟨coherent.unique,owned.alone,fun b => ⟨owned.someone b,fun ⟨p,mine⟩ => owned.busy p b mine⟩,?_,?_⟩
  · intro a s' taken b pinned
    exact pinned_moves (moves_of_step taken) pinned
  · intro p b key s' here taken
    have moves := moves_of_step taken
    have coherent' := coherent_moves owned coherent moves
    obtain ⟨mine,keyed,saved⟩ := owned.reading p b key here
    have keyed' := (pinned_moves moves (.inl (owned.busy p b mine))).trans keyed
    refine ⟨keyed',?_⟩
    rw [← keyed']
    -- the buffer is valid by now, and its data has not been changed since
    cases moves with
    | ready at_p valid =>
      rw [here] at at_p
      cases at_p
      exact coherent'.current b valid saved
    | load at_p invalid done =>
      rw [here] at at_p
      cases at_p
      refine coherent'.current b ?_ saved
      simpa [setPc,setBuf] using (iderw_keeps done).2.2

end

def oldest : BufId := ⟨0,by decide⟩

def reread : List (Action (Fin 2)) :=
  [.bread 0 (1,29),.bget 0,.fill 0,.modify 0 oldest (Bytes.setWord (Bytes.zero BSIZE) 0 7),.log_write 0 oldest,
    .brelse 0 oldest,.bread 1 (1,29),.bget 1]

theorem cache_transparent_reread : ∃ s,
    Steps.run (step 1024) (fun _ _ => True) (State.init (Fin 2) fun _ => Bytes.zero BSIZE) reread = some s ∧
    s.pc 1 = .reading oldest (1,29) ∧ Transparent 1024 (fun _ => Bytes.zero BSIZE) s := by
  have stands : (Steps.run (step 1024) (fun _ _ => True) (init (Fin 2) fun _ => Bytes.zero BSIZE) reread).any
      (fun s => decide (s.pc 1 = .reading oldest (1,29))) = true := by decide +kernel
  obtain ⟨s,taken,here⟩ := (Option.any_eq_true _ _).mp stands
  exact ⟨s,taken,of_decide_eq_true here,cache_transparent (Steps.reachable_run .start taken)⟩

end Osce.Bcache
