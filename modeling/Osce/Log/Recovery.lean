import Osce.Log.Code

/-!
Crash atomicity of the redo log. The disk changes one sector at a time, at each
`bwrite`; a crash keeps the disk and loses everything else.
-/
namespace Osce.Log
open Osce.Lib Osce.Layout Function Prog
open Bytes (word setWord word_zero word_setWord_same word_setWord_ne)

abbrev Disk := Nat → Block

structure Machine where
  disk : Disk
  cache : Nat → Option Block
  busy : Nat → Bool
  lh : List Nat
  writes : Nat

namespace Machine

/-- What `bread` returns for a sector: the buffer if there is one, else the disk. -/
def view (m : Machine) (s : Nat) : Block := (m.cache s).getD (m.disk s)

def boot (d : Disk) : Machine := ⟨d,fun _ => none,fun _ => false,[],0⟩

def load (m : Machine) (s : Nat) : Machine :=
  { m with
    cache := Function.update m.cache s (some (m.view s))
    busy := Function.update m.busy s true }

def handle : Handler LogSig Machine
  | .bread s, m => if m.busy s then .error .sleep else .ok (m.view s,m.load s)
  | .store s data, m => .ok ((),{ m with cache := Function.update m.cache s (some data) })
  | .bwrite s, m => .ok ((),{ m with disk := Function.update m.disk s (m.view s), writes := m.writes + 1 })
  | .brelse s, m => .ok ((),{ m with busy := Function.update m.busy s false })
  | .lh, m => .ok (m.lh,m)
  | .setLh sectors, m => .ok ((),{ m with lh := sectors })

end Machine

open Machine

/-- The sectors of a transaction as `log.lh` holds it: distinct, outside the log
    area, and few enough for the log and for the array `sector[LOGSIZE]`. -/
structure Transaction (log : LogArea) where
  sectors : List Nat
  distinct : sectors.Nodup
  home : ∀ s ∈ sectors, ¬ log.Inside s
  isWord : ∀ s ∈ sectors, s < 2 ^ 32
  /-- `k <= log.size - 1`, as `int`s. -/
  fits : sectors.length < log.size
  inArray : sectors.length ≤ LOGSIZE

def Empty (log : LogArea) (d : Disk) : Prop := word (d log.start) 0 = 0

def SameHome (log : LogArea) (d e : Disk) : Prop := ∀ s, ¬ log.Inside s → d s = e s

def installed {log : LogArea} (t : Transaction log) (contents : Nat → Block) (d : Disk) : Disk :=
  fun s => if s ∈ t.sectors then contents s else d s

/-- `n` and the log blocks on disk hold a transaction that leads to `goal`, and no
    other home sector differs from it. -/
structure Committed (log : LogArea) (t : Transaction log) (goal d : Disk) : Prop where
  header : getHeader (d log.start) = t.sectors
  logged : ∀ i (h : i < t.sectors.length), d (log.start + i + 1) = goal t.sectors[i]
  others : ∀ s, ¬ log.Inside s → s ∉ t.sectors → d s = goal s

/-- A disk from which recovery leads to `goal`. -/
def Recoverable (log : LogArea) (t : Transaction log) (goal d : Disk) : Prop :=
  (Empty log d ∧ SameHome log d goal) ∨ Committed log t goal d

/-- What a copy of `data` to a sector leaves behind: only that sector of the disk
    and of the view has changed. -/
structure Copied (m : Machine) (s : Nat) (data : Block) (m' : Machine) : Prop where
  disk : m'.disk = Function.update m.disk s data
  view : ∀ s', m'.view s' = if s' = s then data else m.view s'
  busy : ∀ s', m'.busy s' = m.busy s'
  lh : m'.lh = m.lh
  writes : m'.writes = m.writes + 1

theorem Copied.free {m m' : Machine} {s : Nat} {data : Block} (copied : Copied m s data m')
    (free : ∀ s', m.busy s' = false) : ∀ s', m'.busy s' = false := by
  intro s'
  rw [copied.busy,free]

section
variable {α : Type} {C : Machine → Prop} {Q : α → Machine → Prop} {m : Machine}

/-- The crash condition looks only at the disk and at how often it was written. -/
def DiskOnly (C : Machine → Prop) : Prop := ∀ m m' : Machine, C m → m'.disk = m.disk → m'.writes = m.writes → C m'

theorem getLh_crashes {next : List Nat → LogProg α} (here : C m) (rest : Prog.Crashes handle C (next m.lh) Q m) :
    Prog.Crashes handle C (getLh >>= next) Q m :=
  ⟨here,m.lh,m,rfl,rest⟩

theorem setLh_crashes {sectors : List Nat} {rest : LogProg α} (here : C m)
    (after : Prog.Crashes handle C rest Q { m with lh := sectors }) :
    Prog.Crashes handle C (setLh sectors >>= fun _ => rest) Q m :=
  ⟨here,(),_,rfl,after⟩

theorem bread_crashes {s : Nat} {next : Block → LogProg α} (free : m.busy s = false) (here : C m)
    (rest : Prog.Crashes handle C (next (m.view s)) Q (m.load s)) : Prog.Crashes handle C (bread s >>= next) Q m :=
  ⟨here,m.view s,m.load s,by simp [handle,free],rest⟩

theorem store_crashes {s : Nat} {data : Block} {rest : LogProg α} (here : C m)
    (after : Prog.Crashes handle C rest Q { m with cache := update m.cache s (some data) }) :
    Prog.Crashes handle C (store s data >>= fun _ => rest) Q m :=
  ⟨here,(),_,rfl,after⟩

theorem view_load (s s' : Nat) : (m.load s).view s' = m.view s' := by
  by_cases same : s' = s
  · subst same; simp [load,view]
  · simp [load,view,same]

theorem view_store (s s' : Nat) (data : Block) :
    Machine.view { m with cache := update m.cache s (some data) } s' = if s' = s then data else m.view s' := by
  by_cases same : s' = s
  · subst same; simp [view]
  · simp [view,same]

theorem bwrite_crashes {s : Nat} {rest : LogProg α} (here : C m)
    (after : Prog.Crashes handle C rest Q
      { m with disk := update m.disk s (m.view s), writes := m.writes + 1 }) :
    Prog.Crashes handle C (bwrite s >>= fun _ => rest) Q m :=
  ⟨here,(),_,rfl,after⟩

theorem brelse_crashes {s : Nat} {rest : LogProg α} (here : C m)
    (after : Prog.Crashes handle C rest Q { m with busy := update m.busy s false }) :
    Prog.Crashes handle C (brelse s >>= fun _ => rest) Q m :=
  ⟨here,(),_,rfl,after⟩

theorem copied_bwrite {m₀ : Machine} {s : Nat} {data : Block} (busy : Nat → Bool)
    (view : ∀ s', m.view s' = if s' = s then data else m₀.view s') (disk : m.disk = m₀.disk)
    (writes : m.writes = m₀.writes) (lh : m.lh = m₀.lh) (released : ∀ s', busy s' = m₀.busy s') :
    Copied m₀ s data
      { m with disk := update m.disk s (m.view s), writes := m.writes + 1, busy := busy } := by
  have written : m.view s = data := by simp [view]
  refine ⟨by simp only [written,disk],fun s' => ?_,released,lh,by simp only [writes]⟩
  rw [← view s']
  by_cases same : s' = s
  · subst same
    cases cached : m.cache s' <;> simp [Machine.view,cached]
  · simp [Machine.view,same]

theorem write_release {s r r' : Nat} {data : Block} {rest : LogProg α} (m₀ : Machine) (diskOnly : DiskOnly C)
    (here : C m) (disk : m.disk = m₀.disk) (writes : m.writes = m₀.writes) (lh : m.lh = m₀.lh)
    (view : ∀ s', m.view s' = if s' = s then data else m₀.view s')
    (busy : ∀ s', s' ≠ r → s' ≠ r' → m.busy s' = m₀.busy s')
    (released : m₀.busy r = false) (released' : m₀.busy r' = false)
    (after : ∀ m', Copied m₀ s data m' → C m' ∧ Prog.Crashes handle C rest Q m') :
    Prog.Crashes handle C (do
      bwrite s
      brelse r
      brelse r'
      rest) Q m := by
  have idle : ∀ s', update (update m.busy r false) r' false s' = m₀.busy s' := by
    intro s'
    by_cases first : s' = r'
    · subst first; simp [released']
    · by_cases second : s' = r
      · subst second; simp [first,released]
      · simp [first,second,busy s' second first]
  obtain ⟨safe,next⟩ := after _ (copied_bwrite _ view disk writes lh idle)
  refine bwrite_crashes here (brelse_crashes ?_ (brelse_crashes ?_ next))
  · exact diskOnly _ _ safe rfl rfl
  · exact diskOnly _ _ safe rfl rfl

/-- One turn of `install_trans`: the only crash points are before and after the
    write of the home sector. -/
theorem install_turn {lblock sector : Nat} {rest : LogProg α} (diskOnly : DiskOnly C) (apart : lblock ≠ sector)
    (free : ∀ s, m.busy s = false) (before : C m)
    (after : ∀ m', Copied m sector (m.view lblock) m' → C m' ∧ Prog.Crashes handle C rest Q m') :
    Prog.Crashes handle C (do
      let lbuf ← bread lblock
      let _ ← bread sector
      store sector lbuf
      bwrite sector
      brelse lblock
      brelse sector
      rest) Q m := by
  have here (m' : Machine) (disk : m'.disk = m.disk) (writes : m'.writes = m.writes) : C m' :=
    diskOnly m m' before disk writes
  refine bread_crashes (free _) before ?_
  refine bread_crashes (by simp [load,free,apart.symm]) (here _ rfl rfl) ?_
  refine store_crashes (here _ rfl rfl) ?_
  refine write_release m diskOnly (here _ rfl rfl) rfl rfl rfl (fun s' => ?_) (fun s' first second => ?_)
    (free _) (free _) after
  · rw [view_store,view_load,view_load]
  · simp [load,first,second]

/-- One turn of `write_log`: the only crash points are before and after the write
    of the log block. -/
theorem write_log_turn {lblock sector : Nat} {rest : LogProg α} (diskOnly : DiskOnly C) (apart : lblock ≠ sector)
    (free : ∀ s, m.busy s = false) (before : C m)
    (after : ∀ m', Copied m lblock (m.view sector) m' → C m' ∧ Prog.Crashes handle C rest Q m') :
    Prog.Crashes handle C (do
      let _ ← bread lblock
      let source ← bread sector
      store lblock source
      bwrite lblock
      brelse sector
      brelse lblock
      rest) Q m := by
  have here (m' : Machine) (disk : m'.disk = m.disk) (writes : m'.writes = m.writes) : C m' :=
    diskOnly m m' before disk writes
  refine bread_crashes (free _) before ?_
  refine bread_crashes (by simp [load,free,apart.symm]) (here _ rfl rfl) ?_
  refine store_crashes (here _ rfl rfl) ?_
  refine write_release m diskOnly (here _ rfl rfl) rfl rfl rfl (fun s' => ?_) (fun s' first second => ?_)
    (free _) (free _) after
  · rw [view_store,view_load,view_load,view_load]
  · simp [load,first,second]

/-- `write_head`: the only crash points are before and after the write of the header. -/
theorem write_head_crashes {log : LogArea} {rest : LogProg α} (diskOnly : DiskOnly C)
    (free : ∀ s, m.busy s = false) (before : C m)
    (after : ∀ m', Copied m log.start (putHeader (m.view log.start) m.lh) m' →
      C m' ∧ Prog.Crashes handle C rest Q m') :
    Prog.Crashes handle C (write_head log >>= fun _ => rest) Q m := by
  have here (m' : Machine) (disk : m'.disk = m.disk) (writes : m'.writes = m.writes) : C m' :=
    diskOnly m m' before disk writes
  refine bread_crashes (free _) before ?_
  refine getLh_crashes (here _ rfl rfl) ?_
  refine store_crashes (here _ rfl rfl) ?_
  have idle : ∀ s', update (m.load log.start).busy log.start false s' = m.busy s' := by
    intro s'
    by_cases same : s' = log.start
    · subst same; simp [free]
    · simp [load,same]
  have stored (s' : Nat) := view_store (m := m.load log.start) log.start s' (putHeader (m.view log.start) m.lh)
  simp only [view_load] at stored
  obtain ⟨safe,next⟩ := after _ (copied_bwrite _ stored rfl rfl rfl idle)
  exact bwrite_crashes (here _ rfl rfl) (brelse_crashes (diskOnly _ _ safe rfl rfl) next)

end

section
variable {log : LogArea} (t : Transaction log)

theorem LogArea.apart {a b : Nat} (inside : log.Inside a) (outside : ¬ log.Inside b) : a ≠ b := by
  rintro rfl
  exact outside inside

theorem Transaction.log_block {i : Nat} (inside : i < t.sectors.length) : log.Inside (log.start + i + 1) := by
  have := t.fits
  constructor <;> omega

theorem Transaction.start_inside (t : Transaction log) : log.Inside log.start := by
  have := t.fits
  constructor <;> omega

def Staged (t : Transaction log) (goal : Disk) (m : Machine) : Prop :=
  ∀ i (h : i < t.sectors.length), m.view (log.start + i + 1) = goal t.sectors[i]

theorem Staged.install {goal : Disk} {m m' : Machine} {s : Nat} {data : Block} (staged : Staged t goal m)
    (member : s ∈ t.sectors) (copied : Copied m s data m') : Staged t goal m' := by
  intro i inside
  rw [copied.view,if_neg (LogArea.apart (t.log_block inside) (t.home s member))]
  exact staged i inside

theorem Committed.install {goal : Disk} {m m' : Machine} {s : Nat} (committed : Committed log t goal m.disk)
    (member : s ∈ t.sectors) (copied : Copied m s (goal s) m') : Committed log t goal m'.disk := by
  have outside := t.home s member
  rw [copied.disk]
  refine ⟨?_,fun i inside => ?_,fun s' home absent => ?_⟩
  · rw [update_of_ne (LogArea.apart t.start_inside outside)]
    exact committed.header
  · rw [update_of_ne (LogArea.apart (t.log_block inside) outside)]
    exact committed.logged i inside
  · have other : s' ≠ s := by rintro rfl; exact absent member
    rw [update_of_ne other]
    exact committed.others s' home absent

/-- The loop of `install_trans`: the transaction stays committed throughout, and in
    the end every one of its sectors is in place. -/
theorem install_from_crashes (goal : Disk) (w : Nat) (finished rest : List Nat)
    (split : t.sectors = finished ++ rest) {m : Machine} (free : ∀ s, m.busy s = false) (staged : Staged t goal m)
    (committed : Committed log t goal m.disk) (inPlace : ∀ s ∈ finished, m.disk s = goal s)
    (counted : w ≤ m.writes) :
    Prog.Crashes handle (fun m' => Committed log t goal m'.disk ∧ w ≤ m'.writes)
      (install_from log finished.length rest)
      (fun _ m' => (∀ s, m'.busy s = false) ∧ Committed log t goal m'.disk ∧
        (∀ s ∈ t.sectors, m'.disk s = goal s) ∧ w ≤ m'.writes) m := by
  have diskOnly : DiskOnly fun m' => Committed log t goal m'.disk ∧ w ≤ m'.writes := by
    rintro m m' ⟨h1,h2⟩ disk writes
    exact ⟨disk ▸ h1,writes ▸ h2⟩
  induction rest generalizing finished m with
  | nil =>
    rw [List.append_nil] at split
    exact ⟨⟨committed,counted⟩,free,committed,split ▸ inPlace,counted⟩
  | cons sector rest ih =>
    have member : sector ∈ t.sectors := by simp [split]
    have inside : finished.length < t.sectors.length := by simp [split]
    have here : t.sectors[finished.length] = sector := by simp [split]
    have block := t.log_block inside
    have apart : log.start + finished.length + 1 ≠ sector := LogArea.apart block (t.home sector member)
    have source : m.view (log.start + finished.length + 1) = goal sector := by
      rw [staged _ inside,here]
    refine install_turn diskOnly apart free ⟨committed,counted⟩ ?_
    intro m' copied
    rw [source] at copied
    have committed' := committed.install t member copied
    have counted' : w ≤ m'.writes := by rw [copied.writes]; omega
    refine ⟨⟨committed',counted'⟩,?_⟩
    have inPlace' : ∀ s ∈ finished ++ [sector], m'.disk s = goal s := by
      intro s done
      rw [copied.disk]
      by_cases same : s = sector
      · simp [same]
      · rw [update_of_ne same]
        exact inPlace s (by simpa [same] using done)
    have tail := ih (finished ++ [sector]) (by simp [split]) (copied.free free) (staged.install t member copied)
      committed' inPlace' counted'
    rw [List.length_append,List.length_singleton] at tail
    exact tail

/-- The crash condition of `write_log`: the header is empty and no home sector has
    changed. -/
def Logging (t : Transaction log) (d : Disk) (m : Machine) : Prop :=
  Empty log m.disk ∧ SameHome log m.disk d ∧ m.writes ≤ t.sectors.length

/-- The loop of `write_log`: nothing but log blocks changes, and in the end they hold
    the cached contents of the transaction's sectors. -/
theorem write_log_from_crashes {d : Disk} (contents : Nat → Block) (finished rest : List Nat)
    (split : t.sectors = finished ++ rest) {m : Machine} (free : ∀ s, m.busy s = false)
    (empty : Empty log m.disk) (same : SameHome log m.disk d) (counted : m.writes = finished.length)
    (cached : ∀ s, ¬ log.Inside s → m.view s = contents s)
    (logged : ∀ i (h : i < t.sectors.length), i < finished.length →
      m.disk (log.start + i + 1) = contents t.sectors[i] ∧ m.view (log.start + i + 1) = contents t.sectors[i]) :
    Prog.Crashes handle (Logging t d) (write_log_from log finished.length rest)
      (fun _ m' => (∀ s, m'.busy s = false) ∧ Empty log m'.disk ∧ SameHome log m'.disk d ∧ m'.writes = t.sectors.length ∧
        m'.lh = m.lh ∧ ∀ i (h : i < t.sectors.length),
          m'.disk (log.start + i + 1) = contents t.sectors[i] ∧ m'.view (log.start + i + 1) = contents t.sectors[i])
      m := by
  have diskOnly : DiskOnly (Logging t d) := by
    rintro m m' ⟨h1,h2,h3⟩ disk writes
    exact ⟨disk ▸ h1,disk ▸ h2,writes ▸ h3⟩
  have length : t.sectors.length = finished.length + rest.length := by rw [split,List.length_append]
  induction rest generalizing finished m with
  | nil =>
    rw [List.length_nil,Nat.add_zero] at length
    refine ⟨⟨empty,same,by omega⟩,free,empty,same,by omega,rfl,fun i inside => ?_⟩
    exact logged i inside (by omega)
  | cons sector rest ih =>
    simp only [List.length_cons] at length
    have member : sector ∈ t.sectors := by simp [split]
    have inside : finished.length < t.sectors.length := by omega
    have here : t.sectors[finished.length] = sector := by simp [split]
    have block := t.log_block inside
    have apart : log.start + finished.length + 1 ≠ sector := LogArea.apart block (t.home sector member)
    refine write_log_turn diskOnly apart free ⟨empty,same,by omega⟩ ?_
    intro m' copied
    rw [cached sector (t.home sector member)] at copied
    have empty' : Empty log m'.disk := by
      rw [Empty,copied.disk,update_of_ne (by omega)]
      exact empty
    have same' : SameHome log m'.disk d := by
      intro s home
      rw [copied.disk,update_of_ne (LogArea.apart block home).symm]
      exact same s home
    have counted' : m'.writes = (finished ++ [sector]).length := by
      rw [copied.writes,counted,List.length_append,List.length_singleton]
    refine ⟨⟨empty',same',by rw [copied.writes]; omega⟩,?_⟩
    have cached' : ∀ s, ¬ log.Inside s → m'.view s = contents s := by
      intro s home
      rw [copied.view,if_neg (LogArea.apart block home).symm]
      exact cached s home
    have logged' : ∀ i (h : i < t.sectors.length), i < (finished ++ [sector]).length →
        m'.disk (log.start + i + 1) = contents t.sectors[i] ∧
          m'.view (log.start + i + 1) = contents t.sectors[i] := by
      intro i h done
      rw [List.length_append,List.length_singleton] at done
      rw [copied.disk,copied.view]
      by_cases last : i = finished.length
      · subst last
        rw [update_self,if_pos rfl,here]
        exact ⟨rfl,rfl⟩
      · rw [update_of_ne (by omega),if_neg (by omega)]
        exact logged i h (by omega)
    have tail := ih (finished ++ [sector]) (by simp [split]) (copied.free free) empty' same' counted' cached' logged'
      (by rw [List.length_append,List.length_singleton]; omega)
    rw [List.length_append,List.length_singleton,copied.lh] at tail
    exact tail

theorem erase_crashes {goal : Disk} {w : Nat} {m : Machine} (free : ∀ s, m.busy s = false)
    (before : Recoverable log t goal m.disk) (home : SameHome log m.disk goal) (counted : w ≤ m.writes)
    (nothing : m.lh = []) :
    Prog.Crashes handle (fun m' => Recoverable log t goal m'.disk ∧ w ≤ m'.writes) (write_head log)
      (fun _ m' => Empty log m'.disk ∧ SameHome log m'.disk goal ∧ w ≤ m'.writes) m := by
  have diskOnly : DiskOnly fun m' => Recoverable log t goal m'.disk ∧ w ≤ m'.writes := by
    rintro m m' ⟨h1,h2⟩ disk writes
    exact ⟨disk ▸ h1,writes ▸ h2⟩
  have whole : write_head log = write_head log >>= fun _ => ret () := rfl
  rw [whole]
  refine write_head_crashes diskOnly free ⟨before,counted⟩ ?_
  intro m' copied
  rw [nothing] at copied
  have empty : Empty log m'.disk := by
    rw [Empty,copied.disk,update_self]
    exact word_putHeader_zero _ [] (by decide)
  have home' : SameHome log m'.disk goal := by
    intro s outside
    rw [copied.disk,update_of_ne (LogArea.apart t.start_inside outside).symm]
    exact home s outside
  have counted' : w ≤ m'.writes := by rw [copied.writes]; omega
  exact ⟨⟨.inl ⟨empty,home'⟩,counted'⟩,⟨.inl ⟨empty,home'⟩,counted'⟩,empty,home',counted'⟩

theorem install_erase_crashes {goal : Disk} {w : Nat} {m : Machine} (free : ∀ s, m.busy s = false)
    (staged : Staged t goal m) (committed : Committed log t goal m.disk) (header : m.lh = t.sectors)
    (counted : w ≤ m.writes) :
    Prog.Crashes handle (fun m' => Recoverable log t goal m'.disk ∧ w ≤ m'.writes)
      (do install_trans log; setLh []; write_head log)
      (fun _ m' => Empty log m'.disk ∧ SameHome log m'.disk goal ∧ w ≤ m'.writes) m := by
  have install := install_from_crashes t goal w [] t.sectors rfl free staged committed (by simp) counted
  refine crashes_bind (getLh_crashes ⟨.inr committed,counted⟩ ?_)
  rw [header]
  refine crashes_mono install (fun m' h => ⟨.inr h.1,h.2⟩) ?_
  rintro _ m' ⟨free',committed',inPlace,counted'⟩
  have home : SameHome log m'.disk goal := by
    intro s outside
    by_cases member : s ∈ t.sectors
    · exact inPlace s member
    · exact committed'.others s outside member
  refine setLh_crashes ⟨.inr committed',counted'⟩ ?_
  exact erase_crashes t free' (.inr committed') home counted' rfl

/-- Recovery keeps a recoverable disk recoverable throughout, and in the end the
    header is empty and the home sectors are those it leads to. -/
theorem recover_crashes {goal d : Disk} (recoverable : Recoverable log t goal d) :
    Prog.Crashes handle (fun m' => Recoverable log t goal m'.disk) (recover_from_log log)
      (fun _ m' => Empty log m'.disk ∧ SameHome log m'.disk goal) (boot d) := by
  let loaded : Machine :=
    { boot d with
      cache := update (boot d).cache log.start (some (d log.start))
      busy := update (update (boot d).busy log.start true) log.start false
      lh := getHeader (d log.start) }
  have free : ∀ s, loaded.busy s = false := by
    intro s
    by_cases same : s = log.start
    · simp [loaded,same]
    · simp [loaded,same,boot]
  have view : ∀ s, loaded.view s = d s := by
    intro s
    by_cases same : s = log.start
    · simp [loaded,same,Machine.view]
    · simp [loaded,same,Machine.view,boot]
  -- read_head only loads the header, so that the rest starts on the same disk
  refine ⟨recoverable,d log.start,_,rfl,recoverable,(),_,rfl,recoverable,(),loaded,rfl,?_⟩
  show Prog.Crashes handle _ (do install_trans log; setLh []; write_head log) _ loaded
  rcases recoverable with ⟨empty,home⟩ | committed
  · have nothing : loaded.lh = [] := getHeader_empty empty
    refine crashes_bind (getLh_crashes (Or.inl ⟨empty,home⟩) ?_)
    rw [nothing]
    refine ⟨.inl ⟨empty,home⟩,?_⟩
    refine setLh_crashes (.inl ⟨empty,home⟩) ?_
    exact crashes_mono (erase_crashes t (w := 0) (m := { loaded with lh := [] }) free (Or.inl ⟨empty,home⟩) home
      (Nat.zero_le _) rfl) (fun _ h => h.1) (fun _ _ h => ⟨h.1,h.2.1⟩)
  · have staged : Staged t goal loaded := by
      intro i inside
      rw [view]
      exact committed.logged i inside
    exact crashes_mono (install_erase_crashes t (w := 0) free staged committed committed.header (Nat.zero_le _))
      (fun _ h => h.1) (fun _ _ h => ⟨h.1,h.2.1⟩)

/-- A commit is in one of two phases wherever it is cut off: up to the first write of
    the header nothing has changed outside the log; from then on the disk leads to
    the transaction's contents. -/
theorem commit_crashes {m : Machine} (free : ∀ s, m.busy s = false) (empty : Empty log m.disk)
    (header : m.lh = t.sectors) (start : m.writes = 0) :
    Prog.Crashes handle (fun m' => Logging t m.disk m' ∨
        (Recoverable log t (installed t m.view m.disk) m'.disk ∧ t.sectors.length < m'.writes)) (commit log)
      (fun _ _ => True) m := by
  have logging : Logging t m.disk m := ⟨empty,fun _ _ => rfl,by omega⟩
  refine getLh_crashes (.inl logging) ?_
  rw [header]
  by_cases some : t.sectors.length > 0
  · rw [if_pos some]
    have written := write_log_from_crashes t m.view [] t.sectors rfl free empty
      (fun _ _ => rfl) start (fun _ _ => rfl) (by simp)
    refine crashes_bind (getLh_crashes (.inl logging) ?_)
    rw [header]
    refine crashes_mono written (fun _ h => .inl h) ?_
    rintro _ m₁ ⟨free₁,empty₁,home₁,writes₁,header₁,logged₁⟩
    have diskOnly : DiskOnly fun m' => Logging t m.disk m' ∨
        (Recoverable log t (installed t m.view m.disk) m'.disk ∧ t.sectors.length < m'.writes) := by
      rintro m m' (⟨h1,h2,h3⟩ | ⟨h1,h2⟩) disk writes
      · exact .inl ⟨disk ▸ h1,disk ▸ h2,writes ▸ h3⟩
      · exact .inr ⟨disk ▸ h1,writes ▸ h2⟩
    refine write_head_crashes diskOnly free₁ (.inl ⟨empty₁,home₁,by omega⟩) ?_
    intro m₂ copied
    rw [header₁,header] at copied
    have committed : Committed log t (installed t m.view m.disk) m₂.disk := by
      refine ⟨?_,fun i inside => ?_,fun s home absent => ?_⟩
      · rw [copied.disk,update_self]
        exact getHeader_putHeader _ _ t.isWord t.inArray
      · rw [copied.disk,update_of_ne (by omega),(logged₁ i inside).1]
        simp [installed]
      · rw [copied.disk,update_of_ne (LogArea.apart t.start_inside home).symm,home₁ s home]
        simp [installed,absent]
    have staged : Staged t (installed t m.view m.disk) m₂ := by
      intro i inside
      rw [copied.view,if_neg (by omega),(logged₁ i inside).2]
      simp [installed]
    have counted : t.sectors.length + 1 ≤ m₂.writes := by rw [copied.writes]; omega
    refine ⟨.inr ⟨.inr committed,counted⟩,?_⟩
    have header₂ : m₂.lh = t.sectors := by rw [copied.lh,header₁,header]
    exact crashes_mono (install_erase_crashes t (copied.free free₁) staged committed header₂ counted)
      (fun _ h => .inr h) (fun _ _ _ => trivial)
  · rw [if_neg some]
    exact ⟨.inl logging,trivial⟩

end

/-- Recovery runs on the disk, cut off any number of times, and at last completes. -/
inductive Recovered (log : LogArea) : Disk → Disk → Prop where
  | done {d : Disk} {m : Machine} (run : Prog.exec handle (recover_from_log log) (boot d) = .ok ((),m)) :
      Recovered log d m.disk
  | again {d e : Disk} {m : Machine} {p : LogProg Unit}
      (cut : Prog.Reaches handle (recover_from_log log) (boot d) p m) (rest : Recovered log m.disk e) :
      Recovered log d e

theorem recovered_goal {log : LogArea} (t : Transaction log) {goal d e : Disk} (recovered : Recovered log d e)
    (recoverable : Recoverable log t goal d) : Empty log e ∧ SameHome log e goal := by
  induction recovered with
  | done run =>
    obtain ⟨_,m,run',final⟩ := crashes_exec (recover_crashes t recoverable)
    rw [run] at run'
    cases run'
    exact final
  | again cut _ ih =>
    have kept := crashes_reaches (recover_crashes t recoverable) cut
    exact ih kept

/-- Crash atomicity of the redo log. The commit of a transaction of `k` sectors is cut
    off anywhere, and recovery completes after any number of attempts: the home
    sectors are all as before or all `k` of them are the transaction's, the header is
    empty, and the transaction is there if more than `k` sectors had been written,
    that is, if `write_log` and the first `write_head` had written theirs. From
    wherever it was cut off, a recovery that is left alone completes. -/
theorem commit_crash_atomic {log : LogArea} (t : Transaction log) {m : Machine} (free : ∀ s, m.busy s = false)
    (empty : Empty log m.disk) (header : m.lh = t.sectors) (start : m.writes = 0) {p : LogProg Unit} {m' : Machine}
    (cut : Prog.Reaches handle (commit log) m p m') :
    (∃ m'', Prog.exec handle (recover_from_log log) (boot m'.disk) = .ok ((),m'')) ∧
    ∀ e, Recovered log m'.disk e →
      (SameHome log e m.disk ∨ SameHome log e (installed t m.view m.disk)) ∧ Empty log e ∧
      (t.sectors.length < m'.writes → SameHome log e (installed t m.view m.disk)) := by
  have completes {goal : Disk} (recoverable : Recoverable log t goal m'.disk) :
      ∃ m'', exec handle (recover_from_log log) (boot m'.disk) = .ok ((),m'') := by
    obtain ⟨_,m'',run,_⟩ := crashes_exec (recover_crashes t recoverable)
    exact ⟨m'',run⟩
  rcases crashes_reaches (commit_crashes t free empty header start) cut with ⟨still,home,few⟩ | ⟨leads,_⟩
  · refine ⟨completes (.inl ⟨still,home⟩),fun e recovered => ?_⟩
    obtain ⟨erased,kept⟩ := recovered_goal t recovered (.inl ⟨still,home⟩)
    exact ⟨.inl kept,erased,fun many => absurd many (by omega)⟩
  · refine ⟨completes leads,fun e recovered => ?_⟩
    obtain ⟨erased,kept⟩ := recovered_goal t recovered leads
    exact ⟨.inr kept,erased,fun _ => kept⟩

def inodeTransaction : Transaction ⟨994,30⟩ where
  sectors := [2,3]
  distinct := by decide
  home := by decide
  isWord := by decide
  fits := by decide
  inArray := by decide

def inodeBlock : Block := setWord (Bytes.zero BSIZE) 0 1

def inodeMachine : Machine :=
  ⟨fun _ => Bytes.zero BSIZE,fun s => if s = 2 ∨ s = 3 then some inodeBlock else none,fun _ => false,[2,3],0⟩

/-- The machine when `install_trans` has written the first of the two sectors. -/
def cutMachine : Machine := (Prog.steps handle 24 (commit ⟨994,30⟩) inodeMachine).2

theorem commit_crash_atomic_inode : (∃ p, Prog.Reaches handle (commit ⟨994,30⟩) inodeMachine p cutMachine) ∧
    cutMachine.writes = 4 ∧ cutMachine.disk 2 = inodeBlock ∧ cutMachine.disk 3 = Bytes.zero BSIZE ∧
    (∃ m'', Prog.exec handle (recover_from_log ⟨994,30⟩) (boot cutMachine.disk) = .ok ((),m'')) ∧
    ∀ e, Recovered ⟨994,30⟩ cutMachine.disk e →
      SameHome ⟨994,30⟩ e (installed inodeTransaction inodeMachine.view inodeMachine.disk) ∧ Empty ⟨994,30⟩ e := by
  have cut := Prog.reaches_steps handle 24 (commit ⟨994,30⟩) inodeMachine
  obtain ⟨completes,atomic⟩ := commit_crash_atomic inodeTransaction (m := inodeMachine) (fun _ => rfl) (word_zero 0) rfl rfl cut
  refine ⟨⟨_,cut⟩,rfl,rfl,rfl,completes,fun e recovered => ?_⟩
  obtain ⟨_,erased,there⟩ := atomic e recovered
  exact ⟨there (by decide),erased⟩

end Osce.Log
