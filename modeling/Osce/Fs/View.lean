import Osce.Fs.Exec

/-!
The inode layer with the disk taken apart: the marks of the bitmap, the inodes on disk
and in the cache, the entries of the indirect blocks and the bytes of the files, each as
a map of its own. A kernel state shows such a view while it is sound.
-/
namespace Osce.Fs
open Osce.Lib Osce.Layout Osce.Log Prog Function

structure View where
  icache : Entry → Inode
  disk : Nat → Dinode
  marks : Nat → Bool
  /-- The entries of an inode's indirect block, if it has one. -/
  entry : Nat → Nat → Nat
  bytes : Nat → Nat → UInt8
  devsw : Nat → Option Device
  journal : Journal

def overwrite (bytes : Nat → UInt8) (off : Nat) (src : List UInt8) (j : Nat) : UInt8 :=
  if off ≤ j ∧ j < off + src.length then src.getD (j - off) 0 else bytes j

namespace View

def din (v : View) (i : Nat) : Dinode := current v.icache v.disk i
def slot (v : View) (i r : Nat) : Nat := slotIn (v.entry i) (v.din i) r

def alloc (sb : Superblock) (v : View) (b : Nat) : View :=
  { v with marks := Function.update v.marks b true, journal := v.journal.alloc sb b }

def setInode (v : View) (e : Entry) (ip : Inode) : View := { v with icache := Function.update v.icache e ip }

def attach (sb : Superblock) (v : View) (e : Entry) (r b : Nat) : View :=
  { (v.alloc sb b).setInode e { v.icache e with din := (v.icache e).din.setAddr r b } with
    entry := if r = NDIRECT then Function.update v.entry (v.icache e).inum (fun _ => 0) else v.entry }

def enter (sb : Superblock) (v : View) (e : Entry) (idx b : Nat) : View :=
  { v.alloc sb b with
    entry := Function.update v.entry (v.icache e).inum (Function.update (v.entry (v.icache e).inum) idx b)
    journal := (v.journal.alloc sb b).write ((v.icache e).din.addrs NDIRECT) }

def put (v : View) (e : Entry) (addr off : Nat) (src : List UInt8) : View :=
  { v with
    bytes := Function.update v.bytes (v.icache e).inum (overwrite (v.bytes (v.icache e).inum) off src)
    journal := v.journal.write addr }

def update (v : View) (e : Entry) : View :=
  { v with
    disk := Function.update v.disk (v.icache e).inum (v.icache e).din
    journal := v.journal.write (IBLOCK (v.icache e).inum) }

end View

section
variable {entry : Nat → Nat} {d : Dinode} {r b q : Nat}

theorem slotIn_setAddr (low : r ≤ NDIRECT) (empty : d.addrs r = 0) :
    slotIn (if r = NDIRECT then fun _ => 0 else entry) (d.setAddr r b) q = if q = r then b else slotIn entry d q := by
  by_cases direct : q ≤ NDIRECT
  · simp only [slotIn,if_pos direct,Dinode.setAddr,update_apply]
  · have other : q ≠ r := by omega
    simp only [slotIn,if_neg direct,if_neg other,Dinode.setAddr,update_apply]
    by_cases indirect : r = NDIRECT
    · -- the indirect block is new and has no entries
      rw [indirect] at empty
      simp [indirect,empty]
    · simp [indirect,Ne.symm indirect]

theorem slotIn_entry {idx : Nat} (some : d.addrs NDIRECT ≠ 0) :
    slotIn (update entry idx b) d q = if q = NDIRECT + 1 + idx then b else slotIn entry d q := by
  by_cases direct : q ≤ NDIRECT
  · simp only [slotIn,if_pos direct]
    rw [if_neg (by omega)]
  · simp only [slotIn,if_neg direct,if_neg some,update_apply]
    by_cases same : q = NDIRECT + 1 + idx
    · rw [if_pos same,if_pos (by omega)]
    · rw [if_neg same,if_neg (by omega)]

end

section
variable {bytes : Nat → UInt8} {off n : Nat} {src : List UInt8}

theorem overwrite_block {b : Block} (block : n / BSIZE = off / BSIZE)
    (same : bytes n = b.get (n % BSIZE)) : overwrite bytes off src n = (b.write (off % BSIZE) src).get (n % BSIZE) := by
  have whole := Nat.div_add_mod n BSIZE
  have whole' := Nat.div_add_mod off BSIZE
  rw [block] at whole
  rw [overwrite,Bytes.get_write _ _ _ _ (Nat.mod_lt n (by decide))]
  by_cases inside : off ≤ n ∧ n < off + src.length
  · rw [if_pos inside,if_pos (by omega)]
    congr 1
    omega
  · rw [if_neg inside,if_neg (by omega),same]

theorem overwrite_other (inBlock : off % BSIZE + src.length ≤ BSIZE) (block : n / BSIZE ≠ off / BSIZE) :
    overwrite bytes off src n = bytes n := by
  rw [overwrite,if_neg]
  rintro ⟨above,below⟩
  simp only [BSIZE] at inBlock block
  omega

end

/-- The view that a sound state shows, while no buffer is in use. -/
structure Shows (sb : Superblock) (k : Kernel) (v : View) : Prop where
  sound : Sound sb k
  idle : ∀ s, k.busy s = false
  icache : v.icache = k.icache
  disk : ∀ i, i < sb.ninodes → v.disk i = diskInode k.blocks i
  marks : ∀ b, b < sb.size → v.marks b = marked sb k.blocks b
  slots : ∀ i, i < sb.ninodes → (din k i).type ≠ 0 → ∀ r, v.slot i r = slot k.blocks (din k i) r
  bytes : ∀ i, i < sb.ninodes → (din k i).type ≠ 0 → ∀ j, v.bytes i j = byteAt k.blocks (din k i) j
  devsw : v.devsw = k.devsw
  journal : v.journal = k.journal

section
variable {sb : Superblock} {k : Kernel} {v : View} {e : Entry} {i r b : Nat}

theorem Shows.din (shows_ : Shows sb k v) (inside : i < sb.ninodes) : v.din i = Fs.din k i := by
  rw [View.din,Fs.din,shows_.icache]
  exact current_congr (fun _ => Iff.rfl) (fun _ _ => rfl) (shows_.disk i inside)

theorem Shows.quiet (shows_ : Shows sb k v) : k.Quiet sb := by
  intro s busy
  rw [shows_.idle s] at busy
  cases busy

theorem Shows.picks (shows_ : Shows sb k v) :
    pick sb (marked sb k.blocks) k.journal.outstanding = pick sb v.marks v.journal.outstanding := by
  rw [shows_.journal]
  exact pick_congr fun b inside => (shows_.marks b inside).symm

theorem Shows.grows {k' : Kernel} {v' : View} (shows_ : Shows sb k v) (holds : Holds k.icache e i)
    (typed : (k.icache e).din.type ≠ 0) (clear : marked sb k.blocks b = false) (below : b < sb.size)
    (empty : slot k.blocks (k.icache e).din r = 0) (grows : Grows sb e r b k k') (busy : k'.busy = k.busy)
    (icache : v'.icache = k'.icache) (disk : v'.disk = v.disk) (marks : v'.marks = update v.marks b true)
    (others : ∀ j, j ≠ i → v'.entry j = v.entry j)
    (mine : ∀ q, slotIn (v'.entry i) (k'.icache e).din q = if q = r then b else v.slot i q) (bytes : v'.bytes = v.bytes)
    (devsw : v'.devsw = k'.devsw) (journal : v'.journal = k'.journal) : Shows sb k' v' := by
  have sound := shows_.sound
  have sound' := grows.keeps_sound sound holds typed clear below
  have low := sound.low holds
  have here := sound.here holds
  have here' : Fs.din k' i = (k'.icache e).din := current_cached sound'.unique ((grows.holds e i).mpr holds)
  have viewed {j : Nat} (inside : j < sb.ninodes) : v'.din j = Fs.din k' j := by
    rw [View.din,Fs.din,icache]
    refine current_congr (fun _ => Iff.rfl) (fun _ _ => rfl) ?_
    rw [disk,shows_.disk j inside,grows.disk j inside]
  have types {j : Nat} (inside : j < sb.ninodes) (typed' : (Fs.din k' j).type ≠ 0) : (Fs.din k j).type ≠ 0 := by
    by_cases same : j = i
    · rw [same,here]
      exact typed
    · rwa [← grows.din_other holds inside same]
  refine ⟨sound',by rw [busy]; exact shows_.idle,icache,fun j inside => ?_,fun c inside => ?_,fun j inside typed' q => ?_,
    fun j inside typed' n => ?_,devsw,journal⟩
  · rw [disk,shows_.disk j inside,grows.disk j inside]
  · rw [marks,grows.marks c inside]
    by_cases same : c = b
    · rw [same,update_self]
      simp
    · rw [update_of_ne same,shows_.marks c inside]
      simp [same]
  · rw [View.slot,viewed inside]
    by_cases same : j = i
    · rw [same,here',mine,grows.slots,shows_.slots i low (by rw [here]; exact typed),here]
    · rw [others j same,grows.slot_other sound holds typed clear below inside (types inside typed') same,
        ← shows_.slots j inside (types inside typed'),View.slot,shows_.din inside,grows.din_other holds inside same]
  · rw [bytes,grows.bytes sound holds typed clear below empty inside (types inside typed'),
      shows_.bytes j inside (types inside typed')]

theorem Shows.attach (shows_ : Shows sb k v) (holds : Holds v.icache e i) (typed : (v.icache e).din.type ≠ 0)
    (clear : v.marks b = false) (below : b < sb.size) (low : r ≤ NDIRECT) (empty : (v.icache e).din.addrs r = 0) :
    Shows sb (k.attach sb e r b) (v.attach sb e r b) := by
  have sound := shows_.sound
  rw [shows_.marks b (by omega)] at clear
  rw [shows_.icache] at holds typed empty
  have inode : v.icache e = k.icache e := by rw [shows_.icache]
  have mine : v.din i = (k.icache e).din := (shows_.din (sound.low holds)).trans (sound.here holds)
  have here : ((k.attach sb e r b).icache e).din = (k.icache e).din.setAddr r b := by
    rw [show (k.attach sb e r b).icache e = _ from update_self _ _ _]
  have noBlock : Fs.slot k.blocks (k.icache e).din r = 0 := by rw [slot_direct low,empty]
  refine shows_.grows holds typed clear below noBlock (attach_grows sound holds typed clear below low empty) rfl ?_ rfl rfl
    (fun j other => ?_) (fun q => ?_) rfl shows_.devsw ?_
  · show update v.icache e _ = update k.icache e _
    rw [shows_.icache]
  · simp only [View.attach,inode,holds.2.1]
    split
    · exact update_of_ne other _ _
    · rfl
  · rw [here,View.slot,mine]
    have entries : (v.attach sb e r b).entry i = if r = NDIRECT then fun _ => 0 else v.entry i := by
      simp only [View.attach,inode,holds.2.1]
      split
      · exact update_self _ _ _
      · rfl
    rw [entries]
    exact slotIn_setAddr low empty
  · show v.journal.alloc sb b = k.journal.alloc sb b
    rw [shows_.journal]

theorem Shows.enter {idx : Nat} (shows_ : Shows sb k v) (holds : Holds v.icache e i)
    (typed : (v.icache e).din.type ≠ 0) (clear : v.marks b = false) (below : b < sb.size) (inBlock : idx < NINDIRECT)
    (some : (v.icache e).din.addrs NDIRECT ≠ 0) (empty : v.entry i idx = 0) :
    Shows sb (k.enter sb ((k.icache e).din.addrs NDIRECT) idx b) (v.enter sb e idx b) := by
  have sound := shows_.sound
  rw [shows_.marks b (by omega)] at clear
  rw [shows_.icache] at holds typed some
  have inode : v.icache e = k.icache e := by rw [shows_.icache]
  have low := sound.low holds
  have mine : v.din i = (k.icache e).din := (shows_.din (sound.low holds)).trans (sound.here holds)
  have noBlock : Fs.slot k.blocks (k.icache e).din (NDIRECT + 1 + idx) = 0 := by
    have here := sound.here holds
    rw [← here,← shows_.slots i low (by rw [here]; exact typed),View.slot,mine,slotIn,if_neg (by omega),if_neg some]
    rw [show NDIRECT + 1 + idx - NDIRECT - 1 = idx by omega,empty]
  refine shows_.grows holds typed clear below noBlock (enter_grows sound holds typed clear below inBlock some) rfl
    shows_.icache rfl rfl (fun j other => ?_) (fun q => ?_) rfl shows_.devsw ?_
  · simp only [View.enter,inode,holds.2.1]
    exact update_of_ne other _ _
  · have entries : (v.enter sb e idx b).entry i = update (v.entry i) idx b := by
      simp only [View.enter,inode,holds.2.1]
      exact update_self _ _ _
    rw [entries,View.slot,mine]
    exact slotIn_entry some
  · show (v.journal.alloc sb b).write _ = (k.journal.alloc sb b).write _
    rw [shows_.journal,inode]

theorem Sound.keep {k' : Kernel} (sound : Sound sb k) (super : k'.blocks 1 = k.blocks 1)
    (marks : ∀ c, c < sb.size → marked sb k'.blocks c = marked sb k.blocks c) (owns : ∀ x, own sb k' x = own sb k x)
    (unique : Unique k'.icache) (inside : ∀ e, (k'.icache e).ref > 0 → (k'.icache e).inum < sb.ninodes)
    (fits : ∀ e, (k'.icache e).din.Fits) : Sound sb k' := by
  refine ⟨by rw [super]; exact sound.super,sound.small,sound.layout,fun c low small => ?_,?_,unique,inside,fits⟩
  · rw [marks c small]
    exact sound.reserved c low small
  · exact sound.owned.forget (fun x => .inl (owns x)) (fun c _ high => marks c (by omega))

theorem own_congr {k' : Kernel} (types : ∀ j, j < sb.ninodes → (Fs.din k' j).type = (Fs.din k j).type)
    (slots : ∀ j, j < sb.ninodes → (Fs.din k j).type ≠ 0 → ∀ q, Fs.slot k'.blocks (Fs.din k' j) q = Fs.slot k.blocks (Fs.din k j) q)
    (x : Nat × Nat) : own sb k' x = own sb k x := by
  obtain ⟨j,q⟩ := x
  by_cases inside : j < sb.ninodes
  · simp only [Fs.own,types j inside]
    by_cases typed' : (Fs.din k j).type ≠ 0
    · rw [slots j inside typed']
    · rw [if_neg (fun h => typed' h.2),if_neg (fun h => typed' h.2)]
  · rw [Fs.own,Fs.own,if_neg (fun h => inside h.1),if_neg (fun h => inside h.1)]

theorem Shows.store {k' : Kernel} {v' : View} (shows_ : Shows sb k v) (icache : k'.icache = k.icache) (busy : k'.busy = k.busy)
    (super : k'.blocks 1 = k.blocks 1) (marks : ∀ c, c < sb.size → marked sb k'.blocks c = marked sb k.blocks c)
    (dins : ∀ j, j < sb.ninodes → Fs.din k' j = Fs.din k j)
    (slots : ∀ j, j < sb.ninodes → (Fs.din k j).type ≠ 0 → ∀ q, Fs.slot k'.blocks (Fs.din k j) q = Fs.slot k.blocks (Fs.din k j) q)
    (same : v'.icache = v.icache ∧ v'.marks = v.marks ∧ v'.entry = v.entry)
    (disk : ∀ j, j < sb.ninodes → v'.disk j = diskInode k'.blocks j)
    (bytes : ∀ j, j < sb.ninodes → (Fs.din k j).type ≠ 0 → ∀ n, v'.bytes j n = byteAt k'.blocks (Fs.din k j) n)
    (devsw : v'.devsw = k'.devsw) (journal : v'.journal = k'.journal) : Shows sb k' v' := by
  have sound := shows_.sound
  refine ⟨sound.keep super marks (own_congr (fun j inside => by rw [dins j inside]) fun j inside typed q => by
    rw [dins j inside,slots j inside typed]) (icache ▸ sound.unique) (icache ▸ sound.inside) (icache ▸ sound.fits),
    busy ▸ shows_.idle,by rw [same.1,icache,shows_.icache],disk,fun c inside => ?_,fun j inside typed q => ?_,
    fun j inside typed n => ?_,devsw,journal⟩
  · rw [marks c inside,same.2.1]
    exact shows_.marks c inside
  · have viewed : v'.din j = Fs.din k' j := by
      rw [View.din,Fs.din,same.1,shows_.icache,icache]
      exact current_congr (fun _ => Iff.rfl) (fun _ _ => rfl) (disk j inside)
    rw [View.slot,viewed,same.2.2]
    rw [dins j inside] at typed ⊢
    rw [slots j inside typed,← shows_.slots j inside typed,View.slot,shows_.din inside]
  · rw [dins j inside] at typed ⊢
    exact bytes j inside typed n

theorem Shows.put {off : Nat} {src : List UInt8} (shows_ : Shows sb k v) (holds : Holds v.icache e i)
    (typed : (v.icache e).din.type ≠ 0) (some : v.slot i (slotOf (off / BSIZE)) ≠ 0)
    (inBlock : off % BSIZE + src.length ≤ BSIZE) :
    Shows sb
      (k.put (v.slot i (slotOf (off / BSIZE))) ((k.blocks (v.slot i (slotOf (off / BSIZE)))).write (off % BSIZE) src))
      (v.put e (v.slot i (slotOf (off / BSIZE))) off src) := by
  have sound := shows_.sound
  have small := sound.small
  rw [shows_.icache] at holds typed
  have inode : v.icache e = k.icache e := by rw [shows_.icache]
  have low := sound.low holds
  have here := sound.here holds
  have typedI : (Fs.din k i).type ≠ 0 := by rw [here]; exact typed
  have slotEq := shows_.slots i low typedI (slotOf (off / BSIZE))
  generalize atX : v.slot i (slotOf (off / BSIZE)) = x at *
  have held := sound.held low typedI (r := slotOf (off / BSIZE)) (by rw [← slotEq]; exact some)
  rw [← slotEq] at held
  have := three_lt_dataStart sb
  generalize newData : (k.blocks x).write (off % BSIZE) src = data
  have disk {j : Nat} (inside : j < sb.ninodes) : diskInode (k.put x data).blocks j = diskInode k.blocks j := by
    have := IBLOCK_lt_dataStart inside
    exact disk_update (by omega)
  have dins {j : Nat} (inside : j < sb.ninodes) : Fs.din (k.put x data) j = Fs.din k j :=
    current_congr (fun _ => Iff.rfl) (fun _ _ => rfl) (disk inside)
  -- another slot than this one holds another block
  have apart {j q : Nat} (inside : j < sb.ninodes) (typed' : (Fs.din k j).type ≠ 0)
      (other : j ≠ i ∨ q ≠ slotOf (off / BSIZE)) (isSome : Fs.slot k.blocks (Fs.din k j) q ≠ 0) :
      (k.put x data).blocks (Fs.slot k.blocks (Fs.din k j) q) = k.blocks (Fs.slot k.blocks (Fs.din k j) q) := by
    refine update_of_ne (fun same => ?_) _ _
    obtain ⟨first,second⟩ := sound.apart inside typed' low typedI isSome (same.trans slotEq)
    rcases other with other | other
    · exact other first
    · exact other second
  have slots {j : Nat} (inside : j < sb.ninodes) (typed' : (Fs.din k j).type ≠ 0) (q : Nat) :
      Fs.slot (k.put x data).blocks (Fs.din k j) q = Fs.slot k.blocks (Fs.din k j) q := by
    refine slot_congr rfl (fun isSome => ?_) q
    have indirect : Fs.slot k.blocks (Fs.din k j) NDIRECT = (Fs.din k j).addrs NDIRECT := slot_direct (Nat.le_refl _)
    rw [← indirect]
    exact apart inside typed' (.inr (Ne.symm (slotOf_ne_indirect _))) (by rw [indirect]; exact isSome)
  refine shows_.store rfl rfl (update_of_ne (by omega) _ _) (fun c inside => marked_data _ held.1 inside) (fun j => dins)
    (fun j => slots) ⟨rfl,rfl,rfl⟩ (fun j inside => ?_) (fun j inside typed' n => ?_) shows_.devsw ?_
  · rw [disk inside]
    exact shows_.disk j inside
  · have before := shows_.bytes j inside typed' n
    by_cases same : j = i
    · subst same
      have bytes : (v.put e x off src).bytes j = overwrite (v.bytes j) off src := by
        simp only [View.put,inode,holds.2.1]
        exact update_self _ _ _
      rw [bytes,byteAt,blockOf,slots inside typed']
      by_cases block : n / BSIZE = off / BSIZE
      · rw [block,← slotEq,if_neg some,show (k.put x data).blocks x = data from update_self _ _ _,← newData]
        refine overwrite_block block ?_
        rw [before,byteAt,blockOf,block,← slotEq,if_neg some]
      · rw [overwrite_other inBlock block,before,byteAt,blockOf]
        split
        · rfl
        · rename_i isSome
          rw [apart inside typed' (.inr (fun equal => block (slotOf_inj equal))) isSome]
    · rw [show (v.put e x off src).bytes j = v.bytes j by
        simp only [View.put,inode,holds.2.1]
        exact update_of_ne same _ _,before]
      refine (byteAt_congr (fun bn => slots inside typed' _) (fun bn isSome => ?_) n).symm
      exact apart inside typed' (.inl same) isSome
  · show v.journal.write x = k.journal.write x
    rw [shows_.journal]

theorem Shows.cache {c : Entry → Inode} (shows_ : Shows sb k v) (unique : Unique c)
    (types : ∀ j, j < sb.ninodes → (current c (diskInode k.blocks) j).type = (Fs.din k j).type)
    (addrs : ∀ j, j < sb.ninodes → (Fs.din k j).type ≠ 0 → (current c (diskInode k.blocks) j).addrs = (Fs.din k j).addrs)
    (inside : ∀ e, (c e).ref > 0 → (c e).inum < sb.ninodes) (fits : ∀ e, (c e).din.Fits) :
    Shows sb { k with icache := c } { v with icache := c } := by
  have slots {j : Nat} (small : j < sb.ninodes) (typed' : (Fs.din k j).type ≠ 0) (q : Nat) :
      Fs.slot k.blocks (current c (diskInode k.blocks) j) q = Fs.slot k.blocks (Fs.din k j) q :=
    slot_congr (addrs j small typed') (fun _ => rfl) q
  refine ⟨shows_.sound.keep rfl (fun _ _ => rfl) (own_congr types fun j small typed' => slots small typed') unique inside
    fits,shows_.idle,rfl,shows_.disk,shows_.marks,fun j small typed' q => ?_,fun j small typed' n => ?_,shows_.devsw,
    shows_.journal⟩
  · have typed : (Fs.din k j).type ≠ 0 := by rw [← types j small]; exact typed'
    have viewed : View.din { v with icache := c } j = current c (diskInode k.blocks) j :=
      current_congr (fun _ => Iff.rfl) (fun _ _ => rfl) (shows_.disk j small)
    have before := shows_.slots j small typed q
    rw [View.slot,shows_.din small] at before
    rw [View.slot,viewed,show Fs.din { k with icache := c } j = current c (diskInode k.blocks) j from rfl,slots small typed,
      ← before]
    simp only [slotIn,addrs j small typed]
  · have typed : (Fs.din k j).type ≠ 0 := by rw [← types j small]; exact typed'
    exact (shows_.bytes j small typed n).trans (byteAt_congr (fun bn => slots small typed _) (fun _ _ => rfl) n).symm

theorem Shows.setInode (shows_ : Shows sb k v) (ip : Inode) (ref : ip.ref > 0 ↔ (v.icache e).ref > 0)
    (inum : ip.inum = (v.icache e).inum) (valid : ip.valid = (v.icache e).valid)
    (type : ip.din.type = (v.icache e).din.type) (addrs : ip.din.addrs = (v.icache e).din.addrs) (fits : ip.din.Fits) :
    Shows sb (k.setInode e ip) (v.setInode e ip) := by
  have sound := shows_.sound
  have icache := shows_.icache
  rw [icache] at ref inum valid type addrs
  rw [View.setInode,icache]
  have now (j : Nat) : current (update k.icache e ip) (diskInode k.blocks) j =
      if Holds k.icache e j then ip.din else Fs.din k j := current_update sound.unique ref inum valid j
  refine shows_.cache (unique_keep sound.unique ref.mp inum) (fun j _ => ?_) (fun j _ _ => ?_) (fun e' used => ?_) (fun e' => ?_)
  · rw [now]
    split
    · rw [sound.here ‹_›,type]
    · rfl
  · rw [now]
    split
    · rw [sound.here ‹_›,addrs]
    · rfl
  · by_cases here : e' = e
    · rw [here,update_self] at used ⊢
      rw [inum]
      exact sound.inside e (ref.mp used)
    · rw [update_of_ne here] at used ⊢
      exact sound.inside e' used
  · by_cases here : e' = e
    · rw [here,update_self]
      exact fits
    · rw [update_of_ne here]
      exact sound.fits e'

theorem Shows.update (shows_ : Shows sb k v) (holds : Holds v.icache e i) :
    Shows sb (k.update e) (v.update e) := by
  have sound := shows_.sound
  rw [shows_.icache] at holds
  have inode : v.icache e = k.icache e := by rw [shows_.icache]
  have low := sound.low holds
  have := one_lt_IBLOCK i
  have disk {j : Nat} (inside : j < sb.ninodes) :
      diskInode (k.update e).blocks j = if j = i then (k.icache e).din else diskInode k.blocks j := by
    simp only [Kernel.update,Kernel.put,holds.2.1]
    split
    · subst j
      exact disk_put_same i (sound.fits e)
    · exact disk_put_ne ‹_› _
  -- the cache has the inode, so that its current fields do not change
  have dins {j : Nat} (inside : j < sb.ninodes) : Fs.din (k.update e) j = Fs.din k j := by
    by_cases same : j = i
    · subst same
      rw [show Fs.din (k.update e) j = (k.icache e).din from current_cached sound.unique holds]
      exact (current_cached sound.unique holds).symm
    · exact current_congr (fun _ => Iff.rfl) (fun _ _ => rfl) (by rw [disk inside,if_neg same])
  have data {x : Nat} (high : dataStart sb ≤ x) : (k.update e).blocks x = k.blocks x := by
    have := IBLOCK_lt_dataStart low
    simp only [Kernel.update,Kernel.put,holds.2.1]
    exact update_of_ne (by omega) _ _
  have slots {j : Nat} (inside : j < sb.ninodes) (typed : (Fs.din k j).type ≠ 0) (q : Nat) :
      Fs.slot (k.update e).blocks (Fs.din k j) q = Fs.slot k.blocks (Fs.din k j) q := by
    refine slot_congr rfl (fun some => data ?_) q
    have indirect : Fs.slot k.blocks (Fs.din k j) NDIRECT = (Fs.din k j).addrs NDIRECT := slot_direct (Nat.le_refl _)
    have held := sound.held inside typed (r := NDIRECT) (by rw [indirect]; exact some)
    rw [indirect] at held
    exact held.1
  have marks (c : Nat) : marked sb (k.update e).blocks c = marked sb k.blocks c := by
    simp only [Kernel.update,Kernel.put,holds.2.1]
    exact marked_inode _ low c
  refine shows_.store rfl rfl ?_ (fun c _ => marks c) (fun j => dins) (fun j => slots) ⟨rfl,rfl,rfl⟩ (fun j inside => ?_)
    (fun j inside typed n => ?_) shows_.devsw ?_
  · simp only [Kernel.update,Kernel.put,holds.2.1]
    exact update_of_ne (by omega) _ _
  · rw [disk inside]
    simp only [View.update,inode,holds.2.1,update_apply]
    split
    · rfl
    · exact shows_.disk j inside
  · refine (shows_.bytes j inside typed n).trans (byteAt_congr (fun bn => slots inside typed _) (fun bn some => ?_) n).symm
    exact data (sound.held inside typed some).1
  · show v.journal.write _ = k.journal.write _
    rw [shows_.journal,inode]

end

end Osce.Fs
