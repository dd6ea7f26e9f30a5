import Osce.Sys.Calls

/-!
Path names. `skipelem` cuts a path into its elements, copying each into the buffer `name`, and `namex` walks along them.
On the way `iget` panics when an inode is not in the cache and no entry is left for it.
-/
namespace Osce.Sys.Paths
open Osce.Lib Osce.Layout Prog Function List
open Osce.Fs (namecmp cname)

/-- The maximal runs of bytes other than a slash, each cut to `DIRSIZ` bytes. -/
def components (path : List UInt8) : List Name := ((path.splitOn 47).filter (· ≠ [])).map (·.take DIRSIZ)

theorem components_slash (path : List UInt8) : components (47 :: path) = components path := by
  simp [components,splitOn_cons_eq_if_modifyHead]

theorem components_slashes (path : List UInt8) : components (path.dropWhile (· = 47)) = components path := by
  induction path with
  | nil => rfl
  | cons c path ih =>
    by_cases slash : c = 47
    · rw [dropWhile_cons_of_pos (by simpa using slash),ih,slash,components_slash]
    · rw [dropWhile_cons_of_neg (by simpa using slash)]

theorem components_run (run rest : List UInt8) (some : run ≠ []) (other : 47 ∉ run) (ends : ∀ c ∈ rest.head?, c = 47) :
    components (run ++ rest) = run.take DIRSIZ :: components rest := by
  cases rest with
  | nil => simp [components,splitOn_eq_singleton other,some]
  | cons c rest =>
    obtain rfl : c = 47 := ends c rfl
    rw [components_slash,components,splitOn_append_cons_self_of_not_mem other]
    simp [components,some]

/-- `skipelem` cuts off the first element, and what is left begins with the next one. -/
theorem skipelem_cut {path rest : List UInt8} {elem : Name} (cut : Sys.skipelem path = some (elem,rest)) :
    components path = elem :: components rest ∧ rest.length < path.length ∧ ∀ c ∈ rest.head?, c ≠ 47 := by
  rw [Sys.skipelem] at cut
  split at cut
  · cases cut
  · rename_i c tail start
    cases cut
    have notSlash : c ≠ 47 := by
      have test := head?_dropWhile_not (fun x : UInt8 => decide (x = 47)) path
      rw [start] at test
      simpa using test
    have first : (c :: tail).takeWhile (· ≠ 47) = c :: tail.takeWhile (· ≠ 47) := by simp [notSlash]
    have last : (c :: tail).dropWhile (· ≠ 47) = tail.dropWhile (· ≠ 47) := by simp [notSlash]
    rw [first,last]
    refine ⟨?_,?_,fun x isHead => ?_⟩
    · have whole := components_run (c :: tail.takeWhile (· ≠ 47)) (tail.dropWhile (· ≠ 47)) (by simp)
        (fun here => by
          rcases mem_cons.mp here with same | within
          · exact notSlash same.symm
          · have test := mem_takeWhile_imp within
            simp at test)
        (fun x isHead => by
          have test := head?_dropWhile_not (fun x : UInt8 => decide (x ≠ 47)) tail
          rw [Option.mem_def.mp isHead] at test
          simpa using test)
      rw [cons_append,takeWhile_append_dropWhile] at whole
      rw [← components_slashes path,start,whole,components_slashes]
    · have shorter := (dropWhile_suffix (l := path) (· = (47 : UInt8))).length_le
      have a := (dropWhile_suffix (l := tail.dropWhile (· ≠ 47)) (· = (47 : UInt8))).length_le
      have b := (dropWhile_suffix (l := tail) (· ≠ (47 : UInt8))).length_le
      rw [start,length_cons] at shorter
      omega
    · have test := head?_dropWhile_not (fun x : UInt8 => decide (x = 47)) (tail.dropWhile (· ≠ 47))
      rw [Option.mem_def.mp isHead] at test
      simpa using test

theorem elems_from_eq {path : List UInt8} (turns : Nat) (enough : path.length ≤ turns) : elems_from turns path = components path := by
  induction turns generalizing path with
  | zero =>
    obtain rfl : path = [] := eq_nil_of_length_eq_zero (by omega)
    rfl
  | succ turns ih =>
    rw [elems_from]
    cases cut : Sys.skipelem path with
    | none =>
      rw [Sys.skipelem] at cut
      split at cut
      · rename_i start
        rw [← components_slashes path,start]
        rfl
      · cases cut
    | some parts =>
      obtain ⟨elem,rest⟩ := parts
      obtain ⟨whole,shorter,_⟩ := skipelem_cut cut
      dsimp only
      rw [whole,ih (by omega)]

theorem elems_eq (path : List UInt8) : elems path = components path := elems_from_eq path.length le_rfl

structure Element (name : Name) : Prop where
  some : name ≠ []
  clean : ∀ c ∈ name, c ≠ 0
  short : name.length ≤ DIRSIZ

theorem skipelem_element {path rest : List UInt8} {name : Name} (clean : ∀ c ∈ path, c ≠ 0)
    (cut : Sys.skipelem path = some (name,rest)) : Element name ∧ ∀ c ∈ rest, c ≠ 0 := by
  unfold Sys.skipelem at cut
  split at cut
  · cases cut
  · rename_i c tail shape
    cases cut
    have sub (x : UInt8) (here : x ∈ c :: tail) : x ≠ 0 := by
      rw [← shape] at here
      exact clean x (dropWhile_sublist _ |>.subset here)
    have first : c ≠ 47 := by
      have test := head?_dropWhile_not (fun x : UInt8 => decide (x = 47)) path
      rw [shape] at test
      simpa using test
    refine ⟨⟨?_,fun x here => ?_,length_take_le _ _⟩,fun x here => ?_⟩
    · simp [first,DIRSIZ]
    · exact sub x (takeWhile_sublist _ |>.subset (mem_of_mem_take here))
    · exact sub x (dropWhile_sublist _ |>.subset (dropWhile_sublist _ |>.subset here))

theorem elems_from_element {path : List UInt8} {name : Name} (clean : ∀ c ∈ path, c ≠ 0) (turns : Nat)
    (here : name ∈ elems_from turns path) : Element name := by
  induction turns generalizing path with
  | zero => cases here
  | succ turns ih =>
    rw [elems_from] at here
    split at here
    · cases here
    · rename_i first rest cut
      obtain ⟨element,still⟩ := skipelem_element clean cut
      rcases mem_cons.mp here with rfl | later
      · exact element
      · exact ih still later

theorem components_element {path : List UInt8} {name : Name} (clean : ∀ c ∈ path, c ≠ 0) (here : name ∈ components path) :
    Element name := by
  rw [← elems_eq] at here
  exact elems_from_element clean path.length here

/-- Copy the next path element from path into name: the path behind it, and the buffer then. -/
def skipelem (path : List UInt8) (name : Bytes DIRSIZ) : Option (List UInt8 × Bytes DIRSIZ) :=
  let path := path.dropWhile (· = 47)
  if path = [] then none
  else
    let s := path.takeWhile (· ≠ 47)
    let name := if s.length ≥ DIRSIZ then name.write 0 (s.take DIRSIZ) else (name.write 0 s).write s.length [0]
    some ((path.dropWhile (· ≠ 47)).dropWhile (· = 47),name)

def namex_end (nameiparent : Bool) (name : Bytes DIRSIZ) (ip : Entry) : SysProg (Option Entry × Bytes DIRSIZ) := do
  if nameiparent then do
    iput ip
    pure (none,name)
  else pure (some ip,name)

/-- The loop of `namex`, each turn of which takes a byte of the path at least. -/
def namex_from (nameiparent : Bool) : Nat → List UInt8 → Bytes DIRSIZ → Entry → SysProg (Option Entry × Bytes DIRSIZ)
  | 0, _, name, ip => namex_end nameiparent name ip
  | turns + 1, path, name, ip =>
    match skipelem path name with
    | none => namex_end nameiparent name ip
    | some (path,name) => do
      ilock ip
      let d ← perform (.inode ip)
      if d.type ≠ T_DIR then do
        iunlockput ip
        pure (none,name)
      else if nameiparent = true ∧ path = [] then do
        -- Stop one level early.
        iunlock ip
        pure (some ip,name)
      else do
        let found ← dirlookup ip (name.read 0 DIRSIZ)
        match found with
        | none => do
          iunlockput ip
          pure (none,name)
        | some (next,_) => do
          iunlockput ip
          namex_from nameiparent turns path name next

/-- Look up the inode for a path name, or the inode of its parent with the final path element in `name`. -/
def namex (path : List UInt8) (nameiparent : Bool) (name : Bytes DIRSIZ) : SysProg (Option Entry × Bytes DIRSIZ) := do
  if path.head? = some 47 then do
    let ip ← perform (.iget ROOTINO)
    namex_from nameiparent path.length path name ip
  else do
    let cwd ← perform .cwd
    match cwd with
    | some ip => do
      perform (.idup ip)
      namex_from nameiparent path.length path name ip
    | none => panic "trap"

/-- The buffer of `namei` is on its stack, with whatever it holds. -/
def namei (path : List UInt8) (name : Bytes DIRSIZ) : SysProg (Option Entry) := do
  let r ← namex path false name
  pure r.1

def nameiparent (path : List UInt8) (name : Bytes DIRSIZ) : SysProg (Option Entry × Bytes DIRSIZ) := namex path true name

/-- The buffer holds an element, with a zero behind it if there is room for one. -/
def Holds (name : Bytes DIRSIZ) (elem : Name) : Prop :=
  elem.length ≤ DIRSIZ ∧ name.read 0 elem.length = elem ∧ (elem.length < DIRSIZ → name.get elem.length = 0)

theorem holds_write (name : Bytes DIRSIZ) (s : List UInt8) :
    Holds (if s.length ≥ DIRSIZ then name.write 0 (s.take DIRSIZ) else (name.write 0 s).write s.length [0]) (s.take DIRSIZ) := by
  by_cases long : s.length ≥ DIRSIZ
  · have length : (s.take DIRSIZ).length = DIRSIZ := by simp [long]
    rw [if_pos long]
    refine ⟨length.le,?_,fun short => ?_⟩
    · exact Bytes.read_write_same _ _ _ (by omega)
    · omega
  · rw [if_neg long,take_of_length_le (by omega)]
    refine ⟨by omega,?_,fun short => ?_⟩
    · rw [Bytes.read_write_other _ _ _ _ _ (.inl (by omega)),Bytes.read_write_same _ _ _ (by omega)]
    · rw [Bytes.get_write _ _ _ _ short]
      simp

theorem takeWhile_zero (a r : List UInt8) : (a ++ 0 :: r).takeWhile (· ≠ 0) = a.takeWhile (· ≠ 0) := by
  induction a with
  | nil => simp
  | cons c a ih =>
    by_cases zero : c = 0
    · simp [zero]
    · simpa [zero] using ih

theorem Holds.cname {name : Bytes DIRSIZ} {elem : Name} (holds : Holds name elem) : cname (name.read 0 DIRSIZ) = cname elem := by
  obtain ⟨fits,same,zero⟩ := holds
  have split : name.read 0 DIRSIZ = elem ++ name.read elem.length (DIRSIZ - elem.length) := by
    conv => rhs; rw [← same]
    apply ext_getElem
    · simp [Nat.add_sub_cancel' fits]
    · intro i inside _
      rw [Bytes.getElem_read,getElem_append]
      split
      · rw [Bytes.getElem_read]
      · rename_i past
        rw [Bytes.length_read] at past
        rw [Bytes.getElem_read,Bytes.length_read]
        congr 1
        omega
  rw [Fs.cname,Fs.cname,take_of_length_le (by simp),take_of_length_le fits,split]
  by_cases full : elem.length = DIRSIZ
  · simp [full,Bytes.read]
  · obtain ⟨k,isK⟩ : ∃ k, DIRSIZ - elem.length = k + 1 := ⟨DIRSIZ - elem.length - 1,by omega⟩
    have behind : name.read elem.length (k + 1) = 0 :: name.read (elem.length + 1) k := by
      apply ext_getElem
      · simp
      · intro i inside _
        rw [Bytes.getElem_read]
        cases i with
        | zero => exact zero (by omega)
        | succ i =>
          rw [getElem_cons_succ,Bytes.getElem_read]
          congr 1
          omega
    rw [isK,behind,takeWhile_zero]

theorem dirlookup_congr {a b : Name} (same : cname a = cname b) (dp : Entry) : dirlookup dp a = dirlookup dp b := by
  have match' (des : List Dirent) : lookup a des = lookup b des := by simp [lookup,namecmp,same]
  simp only [dirlookup,match']

theorem skipelem_none {path : List UInt8} {name : Bytes DIRSIZ} (stops : Sys.skipelem path = none) : skipelem path name = none := by
  rw [Sys.skipelem] at stops
  split at stops
  · rename_i start
    simp [skipelem,start]
  · cases stops

theorem skipelem_some {path rest : List UInt8} (name : Bytes DIRSIZ) {elem : Name} (cut : Sys.skipelem path = some (elem,rest)) :
    ∃ name', skipelem path name = some (rest,name') ∧ Holds name' elem := by
  rw [Sys.skipelem] at cut
  split at cut
  · cases cut
  · rename_i c tail start
    cases cut
    refine ⟨_,?_,holds_write name _⟩
    rw [skipelem,start]
    simp

theorem elems_from_nil {path : List UInt8} {turns : Nat} (enough : path.length ≤ turns) (starts : ∀ c ∈ path.head?, c ≠ 47) :
    elems_from turns path = [] ↔ path = [] := by
  cases path with
  | nil => cases turns <;> simp [elems_from,Sys.skipelem]
  | cons c path =>
    obtain ⟨turns,rfl⟩ : ∃ k, turns = k + 1 := ⟨turns - 1,by rw [length_cons] at enough; omega⟩
    have notSlash : c ≠ 47 := starts c rfl
    simp [elems_from,Sys.skipelem,notSlash]

def Walks (r : Option Entry × Bytes DIRSIZ) (r' : Option (Entry × Name)) : Prop :=
  r.1 = r'.map (·.1) ∧ ∀ e elem, r' = some (e,elem) → elem ≠ [] → Holds r.2 elem

theorem rel_namex_end (nameiparent : Bool) {name : Bytes DIRSIZ} {elem : Name} (holds : elem ≠ [] → Holds name elem) (ip : Entry) :
    Rel Walks (namex_end nameiparent name ip) (Sys.namex_from nameiparent [] elem ip) := by
  cases nameiparent with
  | true => exact rel_bind (iput ip) fun _ => .ret ⟨rfl,fun _ _ never => by cases never⟩
  | false => exact .ret ⟨rfl,fun _ _ found => by cases found; exact holds⟩

theorem rel_namex_from (nameiparent : Bool) (turns : Nat) {path : List UInt8} (enough : path.length ≤ turns) {name : Bytes DIRSIZ} {elem : Name}
    (holds : elem ≠ [] → Holds name elem) (ip : Entry) :
    Rel Walks (namex_from nameiparent turns path name ip) (Sys.namex_from nameiparent (elems_from turns path) elem ip) := by
  induction turns generalizing path name elem ip with
  | zero => exact rel_namex_end nameiparent holds ip
  | succ turns ih =>
    rw [namex_from,elems_from]
    cases cut : Sys.skipelem path with
    | none =>
      rw [skipelem_none cut]
      exact rel_namex_end nameiparent holds ip
    | some parts =>
      obtain ⟨elem',rest⟩ := parts
      obtain ⟨name',copied,holds'⟩ := skipelem_some name cut
      obtain ⟨_,shorter,starts⟩ := skipelem_cut cut
      have fits : rest.length ≤ turns := by omega
      rw [copied]
      dsimp only
      rw [Sys.namex_from,dirlookup_congr holds'.cname]
      simp only [elems_from_nil fits starts]
      refine rel_bind (ilock ip) fun _ => rel_bind (perform (.inode ip)) fun d => ?_
      split
      · exact rel_bind (iunlockput ip) fun _ => .ret ⟨rfl,fun _ _ never => by cases never⟩
      · split
        · exact rel_bind (iunlock ip) fun _ => .ret ⟨rfl,fun _ _ found => by cases found; exact fun _ => holds'⟩
        · refine rel_bind (dirlookup ip elem') fun found => ?_
          cases found with
          | none => exact rel_bind (iunlockput ip) fun _ => .ret ⟨rfl,fun _ _ never => by cases never⟩
          | some found => exact rel_bind (iunlockput ip) fun _ => ih fits (fun _ => holds') found.1

/-- The walk with the buffer performs the operations of the walk along the elements. -/
theorem rel_namex (path : List UInt8) (nameiparent : Bool) (name : Bytes DIRSIZ) :
    Rel Walks (namex path nameiparent name) (Sys.namex path nameiparent) := by
  have walk (ip : Entry) : Rel Walks (namex_from nameiparent path.length path name ip) (Sys.namex_from nameiparent (elems path) [] ip) :=
    rel_namex_from nameiparent path.length le_rfl (fun never => absurd rfl never) ip
  rw [namex,Sys.namex]
  split
  · exact rel_bind (perform (.iget ROOTINO)) walk
  · refine rel_bind (perform .cwd) fun cwd => ?_
    cases cwd with
    | none => exact .call fun never => never.elim
    | some ip => exact rel_bind (perform (.idup ip)) fun _ => walk ip

/-- The inode numbers to which the entries of the cache refer, as often as they are referred to. -/
def held (s : State) : Multiset Nat := ∑ e, Multiset.replicate (s.icache e).ref.toNat (s.icache e).inum

/-- The cache between two steps of a call that runs alone: at most one inode is locked, by this call. -/
structure Quiet (s : State) (locked : Option Entry) : Prop where
  counts : ∀ e, 0 ≤ (s.icache e).ref
  once : ∀ e e', 0 < (s.icache e).ref → 0 < (s.icache e').ref → (s.icache e).inum = (s.icache e').inum → e = e'
  busy : ∀ e, (s.icache e).busy = decide (locked = some e)
  inUse : ∀ e, locked = some e → 0 < (s.icache e).ref

section
variable {s : State} {locked locked' : Option Entry} {e : Entry} {c : Cached} {i n : Nat}

theorem held_setEntry (s : State) (e : Entry) (c : Cached) :
    held (s.setEntry e c) + Multiset.replicate (s.icache e).ref.toNat (s.icache e).inum = held s + Multiset.replicate c.ref.toNat c.inum := by
  have rest : ∑ x ∈ Finset.univ.erase e, Multiset.replicate ((s.setEntry e c).icache x).ref.toNat ((s.setEntry e c).icache x).inum =
      ∑ x ∈ Finset.univ.erase e, Multiset.replicate (s.icache x).ref.toNat (s.icache x).inum := by
    refine Finset.sum_congr rfl fun x member => ?_
    simp [State.setEntry,update_of_ne (Finset.ne_of_mem_erase member)]
  rw [held,held,← Finset.add_sum_erase _ _ (Finset.mem_univ e),rest,
    ← Finset.add_sum_erase _ (fun x => Multiset.replicate (s.icache x).ref.toNat (s.icache x).inum) (Finset.mem_univ e)]
  simp only [State.setEntry,update_self]
  rw [add_assoc,add_comm,add_comm (∑ x ∈ Finset.univ.erase e, _)]

theorem held_more (old : (s.icache e).ref.toNat = n) (same : 0 < n → (s.icache e).inum = i) (new : c.ref.toNat = n + 1) (isI : c.inum = i) :
    held (s.setEntry e c) = i ::ₘ held s := by
  have balance := held_setEntry s e c
  rw [old,new,isI,Multiset.replicate_succ,Multiset.add_cons,← Multiset.cons_add] at balance
  cases n with
  | zero => simpa using balance
  | succ n =>
    rw [same (Nat.succ_pos n)] at balance
    exact add_right_cancel balance

theorem held_less (old : (s.icache e).ref.toNat = n + 1) (new : c.ref.toNat = n) (same : c.inum = (s.icache e).inum) :
    held s = (s.icache e).inum ::ₘ held (s.setEntry e c) := by
  have balance := held_setEntry s e c
  rw [old,new,same,Multiset.replicate_succ,Multiset.add_cons,← Multiset.cons_add] at balance
  exact (add_right_cancel balance).symm

theorem held_same (ref : c.ref = (s.icache e).ref) (same : c.inum = (s.icache e).inum) : held (s.setEntry e c) = held s := by
  have balance := held_setEntry s e c
  rw [ref,same] at balance
  exact add_right_cancel balance

theorem mem_held : i ∈ held s ↔ ∃ e, 0 < (s.icache e).ref ∧ (s.icache e).inum = i := by
  simp only [held,Multiset.mem_sum,Multiset.mem_replicate,Finset.mem_univ,true_and]
  constructor
  · rintro ⟨e,some,rfl⟩
    exact ⟨e,by omega,rfl⟩
  · rintro ⟨e,some,rfl⟩
    exact ⟨e,by omega,rfl⟩

theorem Quiet.count_held (quiet : Quiet s locked) (inUse : 0 < (s.icache e).ref) : (held s).count (s.icache e).inum = (s.icache e).ref.toNat := by
  rw [held,Multiset.count_sum',Finset.sum_eq_single e]
  · simp
  · intro x _ other
    rw [Multiset.count_replicate]
    split
    · rename_i same
      by_contra some
      exact other (quiet.once x e (by omega) inUse same)
    · rfl
  · simp

def unused (s : State) : Finset Entry := Finset.univ.filter fun e => (s.icache e).ref = 0

/-- Entries in use have different numbers. -/
theorem Quiet.card_held (quiet : Quiet s locked) : (held s).toFinset.card + (unused s).card = NINODE := by
  have image : (held s).toFinset = (Finset.univ.filter fun e => ¬(s.icache e).ref = 0).image fun e => (s.icache e).inum := by
    ext i
    rw [Multiset.mem_toFinset,mem_held,Finset.mem_image]
    refine exists_congr fun e => ?_
    have nonneg := quiet.counts e
    rw [Finset.mem_filter,and_congr_left_iff]
    exact fun _ => ⟨fun inUse => ⟨Finset.mem_univ e,by omega⟩,fun used => by omega⟩
  have used : (held s).toFinset.card = (Finset.univ.filter fun e => ¬(s.icache e).ref = 0).card := by
    rw [image,Finset.card_image_of_injOn]
    intro e member e' member' same
    have inUse := (Finset.mem_filter.mp member).2
    have inUse' := (Finset.mem_filter.mp member').2
    have nonneg := quiet.counts e
    have nonneg' := quiet.counts e'
    exact quiet.once e e' (by omega) (by omega) same
  have all := Finset.card_filter_add_card_filter_not (s := (Finset.univ : Finset Entry)) fun e => (s.icache e).ref = 0
  rw [Finset.card_univ,Fintype.card_fin] at all
  rw [used,unused]
  omega

theorem Quiet.setEntry (quiet : Quiet s locked) (counts : 0 ≤ c.ref)
    (apart : 0 < c.ref → ∀ x, x ≠ e → 0 < (s.icache x).ref → (s.icache x).inum ≠ c.inum) (busy : c.busy = decide (locked' = some e))
    (others : ∀ x, x ≠ e → (locked' = some x ↔ locked = some x)) (inUse : locked' = some e → 0 < c.ref) : Quiet (s.setEntry e c) locked' := by
  have same : (s.setEntry e c).icache e = c := update_self ..
  have other (x : Entry) (ne : x ≠ e) : (s.setEntry e c).icache x = s.icache x := update_of_ne ne ..
  refine ⟨fun x => ?_,fun x y usedX usedY isSame => ?_,fun x => ?_,fun x isLocked => ?_⟩
  · by_cases isE : x = e
    · rw [isE,same]
      exact counts
    · rw [other x isE]
      exact quiet.counts x
  · by_cases isX : x = e
    · by_cases isY : y = e
      · rw [isX,isY]
      · rw [isX,same] at usedX isSame
        rw [other y isY] at usedY isSame
        exact absurd isSame.symm (apart usedX y isY usedY)
    · by_cases isY : y = e
      · rw [isY,same] at usedY isSame
        rw [other x isX] at usedX isSame
        exact absurd isSame (apart usedY x isX usedX)
      · rw [other x isX] at usedX isSame
        rw [other y isY] at usedY isSame
        exact quiet.once x y usedX usedY isSame
  · by_cases isE : x = e
    · rw [isE,same,busy]
    · rw [other x isE,quiet.busy x]
      simp [others x isE]
  · by_cases isE : x = e
    · rw [isE,same]
      exact inUse (isE ▸ isLocked)
    · rw [other x isE]
      exact quiet.inUse x ((others x isE).mp isLocked)

end

def Beside (s s' : State) : Prop := s' = { s with icache := s'.icache }

section
variable {p : Proc} {E : Stop → Prop} {s s' s'' : State} {locked : Option Entry} {e : Entry} {i : Nat}

theorem wp_perform {op : SysOp} {Q : op.Ans → State → Prop} :
    Wp (handle p) E (perform op) Q s ↔ match handle p op s with
      | .ok (a,s') => Q a s'
      | .error e => E e := by
  rw [perform,Prog.perform,wp_call]
  cases handle p op s <;> rfl

theorem Beside.trans (first : Beside s s') (second : Beside s' s'') : Beside s s'' := by
  rw [Beside] at first second
  rw [first] at second
  exact second

theorem Beside.inodes (beside : Beside s s') : s'.inodes = s.inodes := by
  rw [beside]

theorem wp_iget {Q : Entry → State → Prop} (quiet : Quiet s locked)
    (full : i ∉ held s → unused s = ∅ → E (.panic "iget: no inodes"))
    (done : ∀ e s', Beside s s' → Quiet s' locked → held s' = i ::ₘ held s → (s'.icache e).inum = i → 0 < (s'.icache e).ref →
      (∀ x, 0 < (s.icache x).ref → (s'.icache x).inum = (s.icache x).inum ∧ 0 < (s'.icache x).ref) →
      (i ∉ held s → unused s ≠ ∅) → Q e s') :
    Wp (handle p) E (perform (.iget i)) Q s := by
  rw [wp_perform]
  simp only [handle]
  cases hit : cached s.icache i with
  | some e =>
    have test : 0 < (s.icache e).ref ∧ (s.icache e).inum = i := by simpa using find?_some hit
    obtain ⟨inUse,isI⟩ := test
    have new : (s.setEntry e { s.icache e with ref := (s.icache e).ref + 1 }).icache e = { s.icache e with ref := (s.icache e).ref + 1 } :=
      update_self ..
    refine done e _ rfl (quiet.setEntry (by dsimp only; omega) (fun _ x other used same => ?_) (quiet.busy e) (fun _ _ => Iff.rfl) ?_)
      (held_more rfl (fun _ => isI) (by dsimp only; omega) isI) ?_ ?_ (fun x used => ?_) fun missing => absurd (mem_held.mpr ⟨e,inUse,isI⟩) missing
    · exact other (quiet.once x e used inUse same)
    · intro _
      dsimp only
      omega
    · rw [new]
      exact isI
    · rw [new]
      dsimp only
      omega
    · by_cases isE : x = e
      · rw [isE,new]
        exact ⟨rfl,by dsimp only; omega⟩
      · rw [show (s.setEntry e { s.icache e with ref := (s.icache e).ref + 1 }).icache x = s.icache x from update_of_ne isE ..]
        exact ⟨rfl,used⟩
  | none =>
    have missing (x : Entry) (used : 0 < (s.icache x).ref) : (s.icache x).inum ≠ i := by
      have test := find?_eq_none.mp hit x (mem_finRange x)
      simpa [used] using test
    cases found : emptyEntry s.icache with
    | none =>
      refine full (fun member => ?_) (Finset.filter_eq_empty_iff.mpr fun x _ => ?_)
      · obtain ⟨x,used,same⟩ := mem_held.mp member
        exact missing x used same
      · have test := find?_eq_none.mp found x (mem_finRange x)
        simpa using test
    | some e =>
    have unused : (s.icache e).ref = 0 := by simpa using find?_some found
    have free (x : Entry) (used : 0 < (s.icache x).ref) : x ≠ e := by
      rintro rfl
      omega
    have new : (s.setEntry e ⟨i,1,false,false⟩).icache e = ⟨i,1,false,false⟩ := update_self ..
    have notLocked : locked ≠ some e := fun isLocked => free e (quiet.inUse e isLocked) rfl
    refine done e _ rfl (quiet.setEntry (by simp) (fun _ x _ used => missing x used) (by simp [notLocked]) (fun _ _ => Iff.rfl)
      (fun _ => by simp)) (held_more (by rw [unused]; rfl) (fun never => absurd never (by decide)) rfl rfl) ?_ ?_ (fun x used => ?_)
      fun _ => Finset.ne_empty_of_mem (Finset.mem_filter.mpr ⟨Finset.mem_univ e,unused⟩)
    · rw [new]
    · simp [new]
    · rw [show (s.setEntry e ⟨i,1,false,false⟩).icache x = s.icache x from update_of_ne (free x used) ..]
      exact ⟨rfl,used⟩

theorem wp_idup {Q : Unit → State → Prop} (quiet : Quiet s locked) (inUse : 0 < (s.icache e).ref)
    (done : ∀ s', Beside s s' → Quiet s' locked → held s' = (s.icache e).inum ::ₘ held s → (s'.icache e).inum = (s.icache e).inum →
      0 < (s'.icache e).ref → Q () s') : Wp (handle p) E (perform (.idup e)) Q s := by
  have new : (s.setEntry e { s.icache e with ref := (s.icache e).ref + 1 }).icache e = { s.icache e with ref := (s.icache e).ref + 1 } :=
    update_self ..
  refine done _ rfl (quiet.setEntry (by dsimp only; omega) (fun _ x other used same => ?_) (quiet.busy e) (fun _ _ => Iff.rfl) ?_)
    (held_more rfl (fun _ => rfl) (by dsimp only; omega) rfl) ?_ ?_
  · exact other (quiet.once x e used inUse same)
  · intro _
    dsimp only
    omega
  · rw [new]
  · rw [new]
    dsimp only
    omega

def SameRefs (s s' : State) : Prop := ∀ x, (s'.icache x).inum = (s.icache x).inum ∧ (s'.icache x).ref = (s.icache x).ref

theorem sameRefs_setEntry {c : Cached} (inum : c.inum = (s.icache e).inum) (ref : c.ref = (s.icache e).ref) : SameRefs s (s.setEntry e c) := by
  intro x
  by_cases isE : x = e
  · rw [isE,show (s.setEntry e c).icache e = c from update_self ..]
    exact ⟨inum,ref⟩
  · rw [show (s.setEntry e c).icache x = s.icache x from update_of_ne isE ..]
    exact ⟨rfl,rfl⟩

theorem wp_ilock {Q : Unit → State → Prop} (quiet : Quiet s none) (inUse : 0 < (s.icache e).ref) (typed : (s.dinode e).type ≠ 0)
    (done : ∀ s', Beside s s' → Quiet s' (some e) → held s' = held s → SameRefs s s' → Q () s') : Wp (handle p) E (ilock e) Q s := by
  have idle : (s.icache e).busy = false := by simp [quiet.busy e]
  have apart (x : Entry) (other : x ≠ e) (used : 0 < (s.icache x).ref) : (s.icache x).inum ≠ (s.icache e).inum := fun same =>
    other (quiet.once x e used inUse same)
  rw [ilock,wp_bind,wp_perform]
  simp only [handle]
  rw [if_neg (by omega),if_neg (by simp [idle])]
  have quiet₁ : Quiet (s.setEntry e { s.icache e with busy := true }) (some e) :=
    quiet.setEntry (quiet.counts e) (fun _ => apart) (by simp) (fun x other => by simp [Ne.symm other]) fun _ => inUse
  have refs₁ : SameRefs s (s.setEntry e { s.icache e with busy := true }) := sameRefs_setEntry rfl rfl
  have held₁ : held (s.setEntry e { s.icache e with busy := true }) = held s := held_same rfl rfl
  have beside₁ : Beside s (s.setEntry e { s.icache e with busy := true }) := rfl
  have type₁ : ((s.setEntry e { s.icache e with busy := true }).dinode e).type ≠ 0 := by
    rw [State.dinode,(refs₁ e).1]
    exact typed
  generalize s.setEntry e { s.icache e with busy := true } = s₁ at *
  dsimp only
  rw [wp_bind,wp_perform]
  simp only [handle]
  by_cases valid : (s₁.icache e).valid = true
  · rw [if_pos valid]
    exact done s₁ beside₁ quiet₁ held₁ refs₁
  · rw [if_neg valid,if_neg type₁]
    have refs₂ : SameRefs s₁ (s₁.setEntry e { s₁.icache e with valid := true }) := sameRefs_setEntry rfl rfl
    have held₂ : held (s₁.setEntry e { s₁.icache e with valid := true }) = held s₁ := held_same rfl rfl
    have quiet₂ : Quiet (s₁.setEntry e { s₁.icache e with valid := true }) (some e) :=
      quiet₁.setEntry (quiet₁.counts e) (fun used x other usedX same => other (quiet₁.once x e usedX used same)) (quiet₁.busy e)
        (fun _ _ => Iff.rfl) fun _ => quiet₁.inUse e rfl
    have beside₂ : Beside s₁ (s₁.setEntry e { s₁.icache e with valid := true }) := rfl
    refine done _ (beside₁.trans beside₂) quiet₂ (held₂.trans held₁) fun x => ?_
    exact ⟨(refs₂ x).1.trans (refs₁ x).1,(refs₂ x).2.trans (refs₁ x).2⟩

theorem wp_iunlock {Q : Unit → State → Prop} (quiet : Quiet s (some e))
    (done : ∀ s', Beside s s' → Quiet s' none → held s' = held s → SameRefs s s' → Q () s') : Wp (handle p) E (iunlock e) Q s := by
  have inUse := quiet.inUse e rfl
  have busy : (s.icache e).busy = true := by simp [quiet.busy e]
  rw [iunlock,wp_perform]
  simp only [handle]
  rw [if_neg (by simp [busy]; omega)]
  refine done _ rfl (quiet.setEntry (quiet.counts e) (fun _ x other used same => ?_) (by simp) (fun x other => by simp [Ne.symm other]) ?_)
    (held_same rfl rfl) (sameRefs_setEntry rfl rfl)
  · exact other (quiet.once x e used inUse same)
  · intro never
    cases never

theorem wp_iput {Q : Unit → State → Prop} (quiet : Quiet s none) (inUse : 0 < (s.icache e).ref)
    (kept : (s.dinode e).nlink ≠ 0 ∨ 2 ≤ (s.icache e).ref)
    (done : ∀ s', Beside s s' → Quiet s' none → held s = (s.icache e).inum ::ₘ held s' →
      (∀ x, (s'.icache x).inum = (s.icache x).inum ∧ (s'.icache x).ref ≤ (s.icache x).ref) → Q () s') : Wp (handle p) E (iput e) Q s := by
  have stays : ¬((s.icache e).ref = 1 ∧ (s.icache e).valid = true ∧ (s.dinode e).nlink = 0) := by
    rintro ⟨one,_,none⟩
    rcases kept with linked | more
    · exact linked none
    · omega
  rw [iput,wp_bind,wp_perform]
  simp only [handle]
  rw [if_neg stays]
  refine done _ rfl (quiet.setEntry (by dsimp only; omega) (fun _ x other used same => ?_) (quiet.busy e) (fun _ _ => Iff.rfl) ?_)
    (held_less (by omega : (s.icache e).ref.toNat = (s.icache e).ref.toNat - 1 + 1) (by dsimp only; omega) rfl) fun x => ?_
  · exact other (quiet.once x e used inUse same)
  · intro never
    cases never
  · by_cases isE : x = e
    · rw [isE,show (s.setEntry e { s.icache e with ref := (s.icache e).ref - 1 }).icache e = { s.icache e with ref := (s.icache e).ref - 1 }
        from update_self ..]
      exact ⟨rfl,by dsimp only; omega⟩
    · rw [show (s.setEntry e { s.icache e with ref := (s.icache e).ref - 1 }).icache x = s.icache x from update_of_ne isE ..]
      exact ⟨rfl,le_rfl⟩

end

def find (name : Name) (des : List Dirent) : Option Nat := (des.find? fun de => de.inum ≠ 0 ∧ cname de.name = name).map (·.inum)

/-- Where the elements lead, from an inode on: each must be looked up in a directory that has it. -/
def resolve (inodes : Nat → Inode) : Nat → List Name → Option Nat
  | i, [] => some i
  | i, name :: rest =>
    if (inodes i).type = T_DIR then
      match find name (inodes i).entries with
      | some j => resolve inodes j rest
      | none => none
    else none

/-- The directory in which the last of the elements stands. -/
def resolveParent (inodes : Nat → Inode) (i : Nat) (names : List Name) : Option Nat :=
  if names = [] then none else (resolve inodes i names.dropLast).filter fun j => (inodes j).type = T_DIR

/-- The inodes of a tree: they are in use, have links or are held, and are closed under the entries of directories. -/
structure Tree (s : State) (T : Set Nat) : Prop where
  typed : ∀ i ∈ T, (s.inodes i).type ≠ 0
  linked : ∀ i ∈ T, (s.inodes i).nlink ≠ 0 ∨ i ∈ held s
  closed : ∀ i ∈ T, (s.inodes i).type = T_DIR → ∀ de ∈ (s.inodes i).entries, de.inum ≠ 0 → de.inum ∈ T

/-- What a walk from the first state returns in the second, when it is to find this inode or none. -/
def Returns (s s' : State) (r : Option Entry) (answer : Option Nat) : Prop :=
  Beside s s' ∧ Quiet s' none ∧ match answer with
    | none => r = none ∧ held s' = held s
    | some i => ∃ e, r = some e ∧ (s'.icache e).inum = i ∧ 0 < (s'.icache e).ref ∧ held s' = i ::ₘ held s

theorem element_cname {name : Name} (element : Element name) : cname name = name := by
  rw [Fs.cname,take_of_length_le element.short,takeWhile_eq_self_iff]
  exact fun c here => decide_eq_true (element.clean c here)

theorem lookup_some {name : Name} {des : List Dirent} {i slot : Nat} (found : lookup name des = some (i,slot)) :
    ∃ de, des[slot]? = some de ∧ de.inum = i ∧ i ≠ 0 := by
  obtain ⟨⟨de,k⟩,first,same⟩ := Option.map_eq_some_iff.mp found
  cases same
  have here := mem_of_find?_eq_some first
  have test := find?_some first
  simp only [Bool.and_eq_true,decide_eq_true_eq] at test
  exact ⟨de,mem_zipIdx_iff_getElem?.mp here,rfl,test.1⟩

theorem lookup_eq {name : Name} (element : Element name) (des : List Dirent) : (lookup name des).map (·.1) = find name des := by
  have test (de : Dirent) : decide (de.inum ≠ 0 ∧ cname de.name = name) = (decide (de.inum ≠ 0) && namecmp name de.name) := by
    rw [Bool.eq_iff_iff,Bool.and_eq_true,decide_eq_true_iff,decide_eq_true_iff,namecmp,beq_iff_eq,element_cname element]
    exact and_congr_right fun _ => eq_comm
  simp only [find,lookup,Option.map_map]
  conv => rhs; rw [← zipIdx_map_fst 0 des,find?_map]
  simp only [Option.map_map,test]
  rfl

section
variable {inodes : Nat → Inode} {i j : Nat} {name : Name} {rest : List Name} {parent : Bool}

def answer (parent : Bool) (inodes : Nat → Inode) (i : Nat) (names : List Name) : Option Nat :=
  if parent then resolveParent inodes i names else resolve inodes i names

theorem answer_nil : answer parent inodes i [] = if parent then none else some i := by
  cases parent <;> rfl

theorem answer_file (file : (inodes i).type ≠ T_DIR) : answer parent inodes i (name :: rest) = none := by
  cases parent with
  | false => simp [answer,resolve,file]
  | true => cases rest <;> simp [answer,resolveParent,resolve,file]

theorem answer_last (dir : (inodes i).type = T_DIR) : answer true inodes i [name] = some i := by
  simp [answer,resolveParent,resolve,dir]

theorem answer_cons (dir : (inodes i).type = T_DIR) (goes : ¬(parent = true ∧ rest = [])) :
    answer parent inodes i (name :: rest) = (find name (inodes i).entries).bind fun j => answer parent inodes j rest := by
  cases parent with
  | false => cases found : find name (inodes i).entries <;> simp [answer,resolve,dir,found]
  | true =>
    have more : rest ≠ [] := by simpa using goes
    cases found : find name (inodes i).entries <;> simp [answer,resolveParent,resolve,dir,found,more,dropLast_cons_of_ne_nil more]

end

/-- On the way along the elements some inode is not in the cache when `iget` asks for it, and no entry is left: all were in use
    from the start, or all but the one that the walk has taken for the directory it is in. -/
def Crowded (s : State) (parent : Bool) : Nat → List Name → Prop
  | _, [] => False
  | i, name :: rest =>
    (s.inodes i).type = T_DIR ∧ ¬(parent = true ∧ rest = []) ∧ ∃ j, find name (s.inodes i).entries = some j ∧
      ((j ≠ i ∧ j ∉ held s ∧ (unused s).card ≤ if i ∈ held s then 0 else 1) ∨ Crowded s parent j rest)

section
variable {p : Proc} {E : Stop → Prop} {s s₀ : State} {e : Entry} {i : Nat} {T : Set Nat}

theorem wp_iunlockput {Q : Unit → State → Prop} (quiet : Quiet s (some e)) (kept : (s.dinode e).nlink ≠ 0 ∨ 2 ≤ (s.icache e).ref)
    (done : ∀ s', Beside s s' → Quiet s' none → held s = (s.icache e).inum ::ₘ held s' →
      (∀ x, (s'.icache x).inum = (s.icache x).inum ∧ (s'.icache x).ref ≤ (s.icache x).ref) → Q () s') : Wp (handle p) E (iunlockput e) Q s := by
  rw [iunlockput,wp_bind]
  refine wp_iunlock quiet fun s₁ beside₁ quiet₁ held₁ refs₁ => ?_
  have dinode : s₁.dinode e = s.dinode e := by rw [State.dinode,beside₁.inodes,(refs₁ e).1,State.dinode]
  refine wp_iput quiet₁ (by rw [(refs₁ e).2]; exact quiet.inUse e rfl) (by rwa [dinode,(refs₁ e).2]) fun s₂ beside₂ quiet₂ held₂ refs₂ => ?_
  refine done s₂ (beside₁.trans beside₂) quiet₂ (by rw [← held₁,held₂,(refs₁ e).1]) fun x => ?_
  exact ⟨(refs₂ x).1.trans (refs₁ x).1,(refs₂ x).2.trans (refs₁ x).2.le⟩

structure At (s₀ s : State) (locked : Option Entry) (e : Entry) (i : Nat) : Prop where
  beside : Beside s₀ s
  quiet : Quiet s locked
  held : held s = i ::ₘ held s₀
  inum : (s.icache e).inum = i
  inUse : 0 < (s.icache e).ref

theorem At.dinode {locked : Option Entry} (here : At s₀ s locked e i) : s.dinode e = s₀.inodes i := by
  rw [State.dinode,here.beside.inodes,here.inum]

theorem kept_more {locked : Option Entry} (tree : Tree s₀ T) (inT : i ∈ T) (beside : Beside s₀ s) (quiet : Quiet s locked)
    (inUse : 0 < (s.icache e).ref) (isI : (s.icache e).inum = i) (more : (held s₀).count i < (held s).count i) :
    (s.dinode e).nlink ≠ 0 ∨ 2 ≤ (s.icache e).ref := by
  rw [State.dinode,beside.inodes,isI]
  rcases tree.linked i inT with linked | others
  · exact .inl linked
  · have count := quiet.count_held inUse
    have some := Multiset.one_le_count_iff_mem.mpr others
    rw [isI] at count
    exact .inr (by omega)

theorem At.kept {locked : Option Entry} (here : At s₀ s locked e i) (tree : Tree s₀ T) (inT : i ∈ T) :
    (s.dinode e).nlink ≠ 0 ∨ 2 ≤ (s.icache e).ref :=
  kept_more tree inT here.beside here.quiet here.inUse here.inum (by rw [here.held,Multiset.count_cons_self]; omega)

theorem At.gives_up (here : At s₀ s (some e) e i) (tree : Tree s₀ T) (inT : i ∈ T) {Q : Unit → State → Prop}
    (done : ∀ s', Returns s₀ s' none none → Q () s') : Wp (handle p) E (iunlockput e) Q s := by
  refine wp_iunlockput here.quiet (here.kept tree inT) fun s' beside quiet held' _ => ?_
  rw [here.held,here.inum,Multiset.cons_inj_right] at held'
  exact done s' ⟨here.beside.trans beside,quiet,rfl,held'.symm⟩

theorem At.ends (here : At s₀ s none e i) : Returns s₀ s (some e) (some i) :=
  ⟨here.beside,here.quiet,e,rfl,here.inum,here.inUse,here.held⟩

/-- The walk leaves no entry unused just if all were in use, but for one perhaps that it has taken itself. -/
theorem At.full {locked : Option Entry} (here : At s₀ s locked e i) (start : Quiet s₀ none) :
    unused s = ∅ ↔ (unused s₀).card ≤ if i ∈ Paths.held s₀ then 0 else 1 := by
  have before := start.card_held
  have now := here.quiet.card_held
  rw [here.held,Multiset.toFinset_cons] at now
  rw [← Finset.card_eq_zero]
  by_cases member : i ∈ Paths.held s₀
  · rw [Finset.insert_eq_of_mem (Multiset.mem_toFinset.mpr member)] at now
    rw [if_pos member]
    omega
  · rw [Finset.card_insert_of_notMem (fun there => member (Multiset.mem_toFinset.mp there))] at now
    rw [if_neg member]
    omega

theorem wp_namex_from (start : Quiet s₀ none) (tree : Tree s₀ T) (parent : Bool) (names : List Name)
    (elements : ∀ n ∈ names, Element n) {name : Name} (here : At s₀ s none e i) (inT : i ∈ T)
    (panics : Crowded s₀ parent i names → E (.panic "iget: no inodes")) :
    Wp (handle p) E (Sys.namex_from parent names name e) (fun r s' => Returns s₀ s' (r.map (·.1)) (answer parent s₀.inodes i names) ∧
      (∀ x n, r = some (x,n) → parent = true → names.getLast? = some n) ∧ ¬ Crowded s₀ parent i names) s := by
  induction names generalizing s e i name with
  | nil =>
    rw [Sys.namex_from,answer_nil]
    cases parent with
    | false => exact ⟨here.ends,fun _ _ _ never => (by cases never),id⟩
    | true =>
      rw [if_pos rfl,wp_bind]
      refine wp_iput here.quiet here.inUse (here.kept tree inT) fun s' beside quiet held' _ => ?_
      rw [here.held,here.inum,Multiset.cons_inj_right] at held'
      exact ⟨⟨here.beside.trans beside,quiet,rfl,held'.symm⟩,fun _ _ never => (by cases never),id⟩
  | cons elem rest ih =>
    have element := elements elem (mem_cons_self ..)
    rw [Sys.namex_from,wp_bind]
    refine wp_ilock here.quiet here.inUse (by rw [here.dinode]; exact tree.typed i inT) fun s₁ beside₁ quiet₁ held₁ refs₁ => ?_
    have here₁ : At s₀ s₁ (some e) e i :=
      ⟨here.beside.trans beside₁,quiet₁,held₁.trans here.held,(refs₁ e).1.trans here.inum,by rw [(refs₁ e).2]; exact here.inUse⟩
    rw [wp_bind,wp_perform]
    simp only [handle]
    rw [here₁.dinode]
    by_cases file : (s₀.inodes i).type ≠ T_DIR
    · rw [if_pos file,wp_bind,answer_file file]
      exact here₁.gives_up tree inT fun s' returns => ⟨returns,fun _ _ never => (by cases never),fun crowded => file crowded.1⟩
    have dir : (s₀.inodes i).type = T_DIR := not_not.mp file
    rw [if_neg file]
    by_cases stop : parent = true ∧ rest = []
    · obtain ⟨rfl,rfl⟩ := stop
      rw [if_pos ⟨rfl,rfl⟩,wp_bind,answer_last dir]
      refine wp_iunlock quiet₁ fun s₂ beside₂ quiet₂ held₂ refs₂ => ?_
      have here₂ : At s₀ s₂ none e i := ⟨here₁.beside.trans beside₂,quiet₂,held₂.trans here₁.held,(refs₂ e).1.trans here₁.inum,
        by rw [(refs₂ e).2]; exact here₁.inUse⟩
      exact ⟨here₂.ends,fun _ _ found _ => (by cases found; rfl),fun crowded => crowded.2.1 ⟨rfl,rfl⟩⟩
    rw [if_neg stop,wp_bind,answer_cons dir stop,dirlookup,wp_bind,wp_perform]
    simp only [handle]
    rw [here₁.dinode,if_neg file,wp_bind,wp_perform]
    simp only [handle]
    have finds := lookup_eq element (s₀.inodes i).entries
    rw [here₁.dinode,← finds]
    cases found : lookup elem (s₀.inodes i).entries with
    | none =>
      show Wp _ _ (iunlockput e >>= _) _ _
      rw [wp_bind]
      refine here₁.gives_up tree inT fun s' returns => ⟨returns,fun _ _ never => (by cases never),?_⟩
      rintro ⟨-,-,j,isJ,-⟩
      rw [← finds,found] at isJ
      cases isJ
    | some entry =>
      obtain ⟨j,slot⟩ := entry
      obtain ⟨de,isDe,isJ,used⟩ := lookup_some found
      have inTree : j ∈ T := isJ ▸ tree.closed i inT dir de (mem_of_getElem? isDe) (by rw [isJ]; exact used)
      dsimp only
      rw [wp_bind]
      rw [found] at finds
      have missing : j ∉ held s₁ ↔ j ≠ i ∧ j ∉ held s₀ := by rw [here₁.held,Multiset.mem_cons,not_or]
      refine wp_iget quiet₁ (fun out full => panics ⟨dir,stop,j,finds.symm,.inl ?_⟩) fun next s₂ beside₂ quiet₂ held₂ isNext inUse₂ keeps₂ spare => ?_
      · exact ⟨(missing.mp out).1,(missing.mp out).2,(here₁.full start).mp full⟩
      show Wp _ _ (iunlockput e >>= _) _ _
      rw [wp_bind]
      obtain ⟨inum₂,still⟩ := keeps₂ e here₁.inUse
      have isI : (s₂.icache e).inum = i := inum₂.trans here₁.inum
      have both : held s₂ = i ::ₘ j ::ₘ held s₀ := by rw [held₂,here₁.held,Multiset.cons_swap]
      have stays := kept_more tree inT (here₁.beside.trans beside₂) quiet₂ still isI
        (by rw [both,Multiset.count_cons_self]; exact Nat.lt_succ_of_le (Multiset.count_le_count_cons ..))
      refine wp_iunlockput quiet₂ stays fun s₃ beside₃ quiet₃ held₃ refs₃ => ?_
      rw [both,isI,Multiset.cons_inj_right] at held₃
      -- the entry of the next inode is in use, since its number still is
      obtain ⟨x,usedX,isX⟩ := mem_held.mp (held₃ ▸ Multiset.mem_cons_self j _ : j ∈ held s₃)
      obtain rfl : x = next := quiet₂.once x next (usedX.trans_le (refs₃ x).2) inUse₂ (by rw [← (refs₃ x).1,isX,isNext])
      have here₃ : At s₀ s₃ none x j := ⟨(here₁.beside.trans beside₂).trans beside₃,quiet₃,held₃.symm,isX,usedX⟩
      refine wp_mono (ih (fun n member => elements n (mem_cons_of_mem _ member)) here₃ inTree
        fun crowded => panics ⟨dir,stop,j,finds.symm,.inr crowded⟩) fun r s' done => ⟨done.1,fun y n found isParent => ?_,?_⟩
      · have last := done.2.1 y n found isParent
        rw [getLast?_cons,last]
        rfl
      · rintro ⟨-,-,j',isJ',⟨other,out,full⟩ | later⟩
        · cases finds.trans isJ'
          exact spare (missing.mpr ⟨other,out⟩) ((here₁.full start).mpr full)
        · cases finds.trans isJ'
          exact done.2.2 later

/-- Where a path begins. -/
def start (s : State) (c : Entry) (path : List UInt8) : Nat := if path.head? = some 47 then ROOTINO else (s.icache c).inum

/-- `iget` finds no entry, for the root or on the way from there. -/
def Crowds (s : State) (c : Entry) (parent : Bool) (path : List UInt8) : Prop :=
  (path.head? = some 47 ∧ ROOTINO ∉ held s ∧ unused s = ∅) ∨ Crowded s parent (start s c path) (components path)

theorem wp_namex {c : Entry} {path : List UInt8} (clean : ∀ b ∈ path, b ≠ 0) (parent : Bool) (quiet : Quiet s none) (tree : Tree s T)
    (root : ROOTINO ∈ T) (cwd : (s.procs p).cwd = some c) (inUse : 0 < (s.icache c).ref) (current : (s.icache c).inum ∈ T) :
    Wp (handle p) (fun e => e = .panic "iget: no inodes" ∧ Crowds s c parent path) (Sys.namex path parent) (fun r s' =>
      Returns s s' (r.map (·.1)) (answer parent s.inodes (start s c path) (components path)) ∧
      (∀ x n, r = some (x,n) → parent = true → (components path).getLast? = some n) ∧ ¬ Crowds s c parent path) s := by
  have elements (n : Name) (member : n ∈ components path) : Element n := components_element clean member
  rw [Sys.namex,elems_eq,start]
  by_cases absolute : path.head? = some 47
  · rw [if_pos absolute,if_pos absolute,wp_bind]
    refine wp_iget quiet (fun out full => ⟨rfl,.inl ⟨absolute,out,full⟩⟩) fun e s₁ beside₁ quiet₁ held₁ inum₁ inUse₁ _ spare => ?_
    have at' : start s c path = ROOTINO := if_pos absolute
    refine wp_mono (wp_namex_from quiet tree parent _ elements ⟨beside₁,quiet₁,held₁,inum₁,inUse₁⟩ root
      fun crowded => ⟨rfl,.inr (by rwa [at'])⟩) fun r s' done => ⟨done.1,done.2.1,?_⟩
    rintro (⟨-,out,full⟩ | crowded)
    · exact spare out full
    · rw [at'] at crowded
      exact done.2.2 crowded
  · rw [if_neg absolute,if_neg absolute,wp_bind,wp_perform]
    simp only [handle]
    rw [cwd]
    dsimp only
    rw [wp_bind]
    refine wp_idup quiet inUse fun s₁ beside₁ quiet₁ held₁ inum₁ inUse₁ => ?_
    have at' : start s c path = (s.icache c).inum := if_neg absolute
    refine wp_mono (wp_namex_from quiet tree parent _ elements ⟨beside₁,quiet₁,held₁,inum₁,inUse₁⟩ current
      fun crowded => ⟨rfl,.inr (by rwa [at'])⟩) fun r s' done => ⟨done.1,done.2.1,?_⟩
    rintro (⟨isAbsolute,-⟩ | crowded)
    · exact absolute isAbsolute
    · rw [at'] at crowded
      exact done.2.2 crowded

end

section
variable {p : Proc} {s : State} {T : Set Nat} {c : Entry}

/-- For every path and every tree of directories, in a call that runs alone: `namei` returns the inode to which the components lead,
    `nameiparent` the directory of the last one with its name in the buffer, each with one more reference to this inode and no other;
    each returns 0 where the components lead nowhere, with no more references; and no inode is locked. Just where no entry of the
    cache is left for an inode on the way, they panic. -/
theorem paths_resolve (path : List UInt8) (clean : ∀ b ∈ path, b ≠ 0) (name : Bytes DIRSIZ) (quiet : Quiet s none) (tree : Tree s T)
    (root : ROOTINO ∈ T) (cwd : (s.procs p).cwd = some c) (inUse : 0 < (s.icache c).ref) (current : (s.icache c).inum ∈ T) :
    (Crowds s c false path ∧ Prog.exec (handle p) (namei path name) s = .error (.panic "iget: no inodes") ∨
      ¬ Crowds s c false path ∧ ∃ r s', Prog.exec (handle p) (namei path name) s = .ok (r,s') ∧
        Returns s s' r (resolve s.inodes (start s c path) (components path))) ∧
    (Crowds s c true path ∧ Prog.exec (handle p) (nameiparent path name) s = .error (.panic "iget: no inodes") ∨
      ¬ Crowds s c true path ∧ ∃ r name' s', Prog.exec (handle p) (nameiparent path name) s = .ok ((r,name'),s') ∧
        Returns s s' r (resolveParent s.inodes (start s c path) (components path)) ∧
        ∀ e, r = some e → ∃ last, (components path).getLast? = some last ∧ Holds name' last) := by
  constructor
  · have walk : Wp (handle p) (fun e => e = .panic "iget: no inodes" ∧ Crowds s c false path) (namei path name) (fun r s' =>
        ¬ Crowds s c false path ∧ Returns s s' r (resolve s.inodes (start s c path) (components path))) s := by
      rw [namei,wp_bind]
      refine wp_mono ((rel_namex path false name).wp (wp_namex clean false quiet tree root cwd inUse current)) fun r s' done => ?_
      obtain ⟨r',walks,returns,_,spacious⟩ := done
      rw [wp_pure,walks.1]
      exact ⟨spacious,returns⟩
    cases run : Prog.exec (handle p) (namei path name) s with
    | error e =>
      obtain ⟨rfl,crowds⟩ := wp_error walk run
      exact .inl ⟨crowds,rfl⟩
    | ok r =>
      obtain ⟨spacious,returns⟩ := wp_ok walk run
      exact .inr ⟨spacious,r.1,r.2,rfl,returns⟩
  · have walk : Wp (handle p) (fun e => e = .panic "iget: no inodes" ∧ Crowds s c true path) (nameiparent path name) (fun r s' =>
        ¬ Crowds s c true path ∧ Returns s s' r.1 (resolveParent s.inodes (start s c path) (components path)) ∧
        ∀ e, r.1 = some e → ∃ last, (components path).getLast? = some last ∧ Holds r.2 last) s := by
      refine wp_mono ((rel_namex path true name).wp (wp_namex clean true quiet tree root cwd inUse current)) fun r s' done => ?_
      obtain ⟨r',walks,returns,named,spacious⟩ := done
      rw [walks.1]
      refine ⟨spacious,returns,fun e found => ?_⟩
      obtain ⟨⟨x,last⟩,isSome,_⟩ := Option.map_eq_some_iff.mp found
      have isLast := named x last isSome rfl
      have element := components_element clean (mem_of_getLast? isLast)
      exact ⟨last,isLast,walks.2 x last isSome element.some⟩
    cases run : Prog.exec (handle p) (nameiparent path name) s with
    | error e =>
      obtain ⟨rfl,crowds⟩ := wp_error walk run
      exact .inl ⟨crowds,rfl⟩
    | ok r =>
      obtain ⟨spacious,returns,named⟩ := wp_ok walk run
      exact .inr ⟨spacious,r.1.1,r.1.2,r.2,rfl,returns,named⟩

end

/-- A root directory with a file `a` of this number, and files with the other numbers up to it. -/
def inodesUpTo (last i : Nat) : Inode :=
  if i = ROOTINO then ⟨T_DIR,0,0,1,[⟨ROOTINO,Fs.strncpy dot⟩,⟨ROOTINO,Fs.strncpy dotdot⟩,⟨last,Fs.strncpy [97]⟩]⟩
  else if 0 < i ∧ i ≤ last then ⟨T_FILE,0,0,1,[]⟩ else ⟨0,0,0,0,[]⟩

/-- The first entries of the cache, as many as said, refer to the first inodes. -/
def cacheOf (many : Nat) (inodes : Nat → Inode) : State :=
  { State.boot inodes with icache := fun e => if e.val < many then ⟨e.val + 1,1,false,false⟩ else ⟨0,0,false,false⟩ }

theorem quiet_cacheOf (many : Nat) (inodes : Nat → Inode) : Quiet (cacheOf many inodes) none := by
  have entry (e : Entry) : (cacheOf many inodes).icache e = if e.val < many then ⟨e.val + 1,1,false,false⟩ else ⟨0,0,false,false⟩ := rfl
  refine ⟨fun e => ?_,fun e e' used used' same => ?_,fun e => ?_,fun e never => by cases never⟩
  · rw [entry]
    split <;> simp
  · rw [entry] at used same
    rw [entry] at used' same
    split at used <;> split at used' <;> simp_all [Fin.ext_iff]
  · rw [entry]
    split <;> simp

theorem tree_inodesUpTo {many last : Nat} (some : 1 < last) : Tree (cacheOf many (inodesUpTo last)) {i | 0 < i ∧ i ≤ last} := by
  have inode (i : Nat) : (cacheOf many (inodesUpTo last)).inodes i = inodesUpTo last i := rfl
  refine ⟨fun i inside => ?_,fun i inside => .inl ?_,fun i inside dir de member used => ?_⟩
  · have within : 0 < i ∧ i ≤ last := inside
    rw [inode,inodesUpTo,if_pos within]
    split <;> simp [T_DIR,T_FILE]
  · have within : 0 < i ∧ i ≤ last := inside
    rw [inode,inodesUpTo,if_pos within]
    split <;> simp
  · have within : 0 < i ∧ i ≤ last := inside
    rw [inode,inodesUpTo,if_pos within] at member
    split at member
    · simp only [mem_cons,not_mem_nil,or_false] at member
      rcases member with rfl | rfl | rfl
      · exact ⟨by decide,some.le⟩
      · exact ⟨by decide,some.le⟩
      · exact ⟨by simp only; omega,le_rfl⟩
    · cases member

/-- All entries are in use, two of them for the inodes on the way. -/
theorem paths_resolve_full :
    (∃ r s', Prog.exec (handle initproc) (namei [47,46,47,97] (Bytes.zero DIRSIZ)) (cacheOf NINODE (inodesUpTo 50)) = .ok (r,s') ∧
      Returns (cacheOf NINODE (inodesUpTo 50)) s' r (some 50)) ∧
    ∃ r name' s', Prog.exec (handle initproc) (nameiparent [47,46,47,97] (Bytes.zero DIRSIZ)) (cacheOf NINODE (inodesUpTo 50)) = .ok ((r,name'),s') ∧
      Returns (cacheOf NINODE (inodesUpTo 50)) s' r (some ROOTINO) ∧
      ∀ e, r = some e → ∃ last, (components [47,46,47,97]).getLast? = some last ∧ Holds name' last := by
  have child : (Prog.exec (handle initproc) (namei [47,46,47,97] (Bytes.zero DIRSIZ)) (cacheOf NINODE (inodesUpTo 50))).toOption.isSome = true := rfl
  have parent : (Prog.exec (handle initproc) (nameiparent [47,46,47,97] (Bytes.zero DIRSIZ))
    (cacheOf NINODE (inodesUpTo 50))).toOption.isSome = true := rfl
  obtain ⟨first,second⟩ := paths_resolve (p := initproc) (c := ⟨0,by decide⟩) [47,46,47,97] (by simp) (Bytes.zero DIRSIZ)
    (quiet_cacheOf NINODE (inodesUpTo 50)) (tree_inodesUpTo (by decide)) ⟨by decide,by decide⟩ rfl (by decide) ⟨by decide,by decide⟩
  refine ⟨first.elim (fun crowded => ?_) And.right,second.elim (fun crowded => ?_) And.right⟩
  · rw [crowded.2] at child
    cases child
  · rw [crowded.2] at parent
    cases parent

/-- When all entries are in use, the kernel panics on the way to a file that is there. -/
theorem namei_panics : Quiet (cacheOf NINODE (inodesUpTo 51)) none ∧ Tree (cacheOf NINODE (inodesUpTo 51)) {i | 0 < i ∧ i ≤ 51} ∧
    resolve (inodesUpTo 51) ROOTINO (components [47,97]) = some 51 ∧
    Prog.exec (handle initproc) (namei [47,97] (Bytes.zero DIRSIZ)) (cacheOf NINODE (inodesUpTo 51)) = .error (.panic "iget: no inodes") :=
  ⟨quiet_cacheOf _ _,tree_inodesUpTo (by decide),rfl,rfl⟩

end Osce.Sys.Paths
