import Osce.Lib.Owners
import Osce.Fs.State

/-!
The inodes of a state, each from the cache if it is there and from the disk if not, and
what holds of them and the bitmap whenever no operation is under way: every block
that a slot holds is marked and held by no other slot.
-/
namespace Osce.Fs
open Osce.Lib Osce.Layout Osce.Log Function
open Bytes (word setWord word_zero word_setWord_same word_setWord_ne)

def Holds (icache : Entry → Inode) (e : Entry) (i : Nat) : Prop :=
  (icache e).ref > 0 ∧ (icache e).inum = i ∧ (icache e).valid = true

instance (icache : Entry → Inode) (e : Entry) (i : Nat) : Decidable (Holds icache e i) :=
  inferInstanceAs (Decidable (_ ∧ _ ∧ _))

/-- The current fields of an inode: those of the cache, if they are valid there. -/
def current (icache : Entry → Inode) (disk : Nat → Dinode) (i : Nat) : Dinode :=
  match (List.finRange NINODE).find? fun e => Holds icache e i with
  | some e => (icache e).din
  | none => disk i

def Unique (icache : Entry → Inode) : Prop :=
  ∀ e e', (icache e).ref > 0 → (icache e').ref > 0 → (icache e).inum = (icache e').inum → e = e'

section
variable {icache icache' : Entry → Inode} {disk disk' : Nat → Dinode}

theorem current_cached (unique : Unique icache) {e : Entry} {i : Nat} (holds : Holds icache e i) :
    current icache disk i = (icache e).din := by
  have found : (List.finRange NINODE).find? (fun e => decide (Holds icache e i)) = some e := by
    cases search : (List.finRange NINODE).find? (fun e => decide (Holds icache e i)) with
    | none =>
      have := List.find?_eq_none.mp search e (List.mem_finRange e)
      simp [holds] at this
    | some e' =>
      have holds' : Holds icache e' i := by simpa using List.find?_some search
      rw [unique e' e holds'.1 holds.1 (holds'.2.1.trans holds.2.1.symm)]
  rw [current,found]

theorem current_congr {i : Nat} (holds : ∀ e, Holds icache' e i ↔ Holds icache e i)
    (fields : ∀ e, Holds icache e i → (icache' e).din = (icache e).din) (same : disk' i = disk i) :
    current icache' disk' i = current icache disk i := by
  have equal : (fun e => decide (Holds icache' e i)) = fun e => decide (Holds icache e i) := by
    funext e
    simp [holds e]
  rw [current,current,equal]
  cases search : (List.finRange NINODE).find? (fun e => decide (Holds icache e i)) with
  | none => exact same
  | some e => exact fields e (by simpa using List.find?_some search)

end

section
variable {icache : Entry → Inode} {disk : Nat → Dinode} {e : Entry} {ip : Inode}

theorem holds_update_other {e' : Entry} (different : e' ≠ e) (j : Nat) :
    Holds (update icache e ip) e' j ↔ Holds icache e' j := by
  simp only [Holds,update_of_ne different]

theorem holds_update (ref : ip.ref > 0 ↔ (icache e).ref > 0) (inum : ip.inum = (icache e).inum)
    (valid : ip.valid = (icache e).valid) (e' : Entry) (j : Nat) :
    Holds (update icache e ip) e' j ↔ Holds icache e' j := by
  by_cases same : e' = e
  · subst same
    simp only [Holds,update_self,ref,inum,valid]
  · exact holds_update_other same j

theorem unique_update (unique : Unique icache)
    (fresh : ip.ref > 0 → ∀ e', e' ≠ e → (icache e').ref > 0 → (icache e').inum ≠ ip.inum) :
    Unique (update icache e ip) := by
  intro a b first second same
  by_cases isA : a = e
  · by_cases isB : b = e
    · rw [isA,isB]
    · rw [isA,update_self] at first same
      rw [update_of_ne isB] at second same
      exact absurd same.symm (fresh first b isB second)
  · rw [update_of_ne isA] at first same
    by_cases isB : b = e
    · rw [isB,update_self] at second same
      exact absurd same (fresh second a isA first)
    · rw [update_of_ne isB] at second same
      exact unique a b first second same

theorem unique_keep (unique : Unique icache) (ref : ip.ref > 0 → (icache e).ref > 0) (inum : ip.inum = (icache e).inum) :
    Unique (update icache e ip) :=
  unique_update unique fun used e' different used' same =>
    different (unique e' e used' (ref used) (same.trans inum))

theorem current_update (unique : Unique icache) (ref : ip.ref > 0 ↔ (icache e).ref > 0) (inum : ip.inum = (icache e).inum)
    (valid : ip.valid = (icache e).valid) (j : Nat) :
    current (update icache e ip) disk j = if Holds icache e j then ip.din else current icache disk j := by
  have holds := holds_update ref inum valid
  by_cases here : Holds icache e j
  · rw [if_pos here,current_cached (unique_keep unique ref.mp inum) ((holds e j).mpr here),update_self]
  · rw [if_neg here]
    refine current_congr (fun e' => holds e' j) (fun e' holds' => ?_) rfl
    rw [update_of_ne]
    rintro rfl
    exact here holds'

end

def din (k : Kernel) (i : Nat) : Dinode := current k.icache (diskInode k.blocks) i

def own (sb : Superblock) (k : Kernel) (x : Nat × Nat) : Nat :=
  if x.1 < sb.ninodes ∧ (din k x.1).type ≠ 0 then slot k.blocks (din k x.1) x.2 else 0

section
variable {blocks blocks' : Nat → Block} {d d' : Dinode}

theorem slot_direct {r : Nat} (low : r ≤ NDIRECT) : slot blocks d r = d.addrs r := if_pos low

theorem slot_entry {r : Nat} (high : NDIRECT < r) (some : d.addrs NDIRECT ≠ 0) :
    slot blocks d r = word (blocks (d.addrs NDIRECT)) (r - NDIRECT - 1) := by
  rw [slot,slotIn,if_neg (by omega),if_neg some]

theorem slot_none {r : Nat} (high : NDIRECT < r) (none : d.addrs NDIRECT = 0) : slot blocks d r = 0 := by
  rw [slot,slotIn,if_neg (by omega),if_pos none]

theorem slot_congr (addrs : d'.addrs = d.addrs)
    (indirect : d.addrs NDIRECT ≠ 0 → blocks' (d.addrs NDIRECT) = blocks (d.addrs NDIRECT)) (r : Nat) :
    slot blocks' d' r = slot blocks d r := by
  by_cases low : r ≤ NDIRECT
  · rw [slot_direct low,slot_direct low,addrs]
  · by_cases none : d.addrs NDIRECT = 0
    · rw [slot_none (by omega) none,slot_none (by omega) (by rw [addrs,none])]
    · rw [slot_entry (by omega) none,slot_entry (by omega) (by rw [addrs]; exact none),addrs,indirect none]

theorem slot_setAddr {r b : Nat} (low : r ≤ NDIRECT) (empty : d.addrs r = 0)
    (zero : r = NDIRECT → blocks b = Bytes.zero BSIZE) (q : Nat) :
    slot blocks (d.setAddr r b) q = if q = r then b else slot blocks d q := by
  by_cases direct : q ≤ NDIRECT
  · rw [slot_direct direct,slot_direct direct]
    exact update_apply _ _ _ _
  · rw [if_neg (by omega)]
    by_cases indirect : r = NDIRECT
    · subst indirect
      have pointer : (d.setAddr NDIRECT b).addrs NDIRECT = b := by simp [Dinode.setAddr]
      rw [slot_none (by omega) empty]
      by_cases none : b = 0
      · rw [slot_none (by omega) (by rw [pointer,none])]
      · rw [slot_entry (by omega) (by rw [pointer]; exact none),pointer,zero rfl]
        exact word_zero _
    · have pointer : (d.setAddr r b).addrs NDIRECT = d.addrs NDIRECT := update_of_ne (Ne.symm indirect) _ _
      by_cases none : d.addrs NDIRECT = 0
      · rw [slot_none (by omega) none,slot_none (by omega) (by rw [pointer]; exact none)]
      · rw [slot_entry (by omega) none,slot_entry (by omega) (by rw [pointer]; exact none),pointer]

theorem slotOf_inj {a b : Nat} (same : slotOf a = slotOf b) : a = b := by
  simp only [slotOf] at same
  split at same <;> split at same <;> omega

theorem slotOf_ne_indirect (bn : Nat) : slotOf bn ≠ NDIRECT := by
  simp only [slotOf]
  split <;> omega

theorem byteAt_congr (slots : ∀ bn, blockOf blocks' d' bn = blockOf blocks d bn)
    (data : ∀ bn, blockOf blocks d bn ≠ 0 → blocks' (blockOf blocks d bn) = blocks (blockOf blocks d bn)) (j : Nat) :
    byteAt blocks' d' j = byteAt blocks d j := by
  rw [byteAt,byteAt,slots]
  split
  · rfl
  · rename_i some
    rw [data _ some]

end

structure Sound (sb : Superblock) (k : Kernel) : Prop where
  super : Superblock.ofBlock (k.blocks 1) = sb
  small : sb.size < 2 ^ 31
  layout : dataStart sb ≤ sb.size
  /-- The blocks before the data are marked. -/
  reserved : ∀ b, b < dataStart sb → b < sb.size → marked sb k.blocks b = true
  owned : Owned (own sb k) (marked sb k.blocks) (dataStart sb) sb.size
  unique : Unique k.icache
  inside : ∀ e, (k.icache e).ref > 0 → (k.icache e).inum < sb.ninodes
  fits : ∀ e, (k.icache e).din.Fits

section
variable {sb : Superblock} {k : Kernel}

theorem Sound.low {e : Entry} {i : Nat} (sound : Sound sb k) (holds : Holds k.icache e i) : i < sb.ninodes :=
  holds.2.1 ▸ sound.inside e holds.1

theorem Sound.here {e : Entry} {i : Nat} (sound : Sound sb k) (holds : Holds k.icache e i) : din k i = (k.icache e).din :=
  current_cached sound.unique holds

theorem own_of {i : Nat} (inside : i < sb.ninodes) (typed : (din k i).type ≠ 0) (r : Nat) :
    own sb k (i,r) = slot k.blocks (din k i) r := if_pos ⟨inside,typed⟩

theorem Sound.data (sound : Sound sb k) {b : Nat} (clear : marked sb k.blocks b = false) (below : b < sb.size) :
    dataStart sb ≤ b := by
  by_contra low
  rw [sound.reserved b (by omega) (by omega)] at clear
  cases clear

theorem Sound.held (sound : Sound sb k) {i : Nat} (inside : i < sb.ninodes) (typed : (din k i).type ≠ 0) {r : Nat}
    (some : slot k.blocks (din k i) r ≠ 0) :
    dataStart sb ≤ slot k.blocks (din k i) r ∧ slot k.blocks (din k i) r < sb.size ∧
      marked sb k.blocks (slot k.blocks (din k i) r) = true := by
  rw [← own_of inside typed] at some ⊢
  exact ⟨(sound.owned.range _ some).1,(sound.owned.range _ some).2,sound.owned.marked _ some⟩

theorem Sound.fresh (sound : Sound sb k) {b : Nat} (clear : marked sb k.blocks b = false) (below : b < sb.size) {j : Nat}
    (inside : j < sb.ninodes) (typed : (din k j).type ≠ 0) (q : Nat) : slot k.blocks (din k j) q ≠ b := by
  have low := sound.data clear below
  have := three_lt_dataStart sb
  rw [← own_of inside typed]
  exact sound.owned.fresh clear (by omega) _

theorem Sound.apart (sound : Sound sb k) {i j : Nat} (inside : i < sb.ninodes) (typed : (din k i).type ≠ 0)
    (inside' : j < sb.ninodes) (typed' : (din k j).type ≠ 0) {r q : Nat} (some : slot k.blocks (din k i) r ≠ 0)
    (same : slot k.blocks (din k i) r = slot k.blocks (din k j) q) : i = j ∧ r = q := by
  rw [← own_of inside typed] at some same
  rw [← own_of inside' typed'] at same
  exact Prod.mk.inj (sound.owned.apart _ _ some same)

end

def Journal.alloc (sb : Superblock) (j : Journal) (b : Nat) : Journal :=
  (j.write (BBLOCK b sb.ninodes)).write b

def Kernel.alloc (sb : Superblock) (k : Kernel) (b : Nat) : Kernel :=
  { k with
    blocks := Function.update (Function.update k.blocks (BBLOCK b sb.ninodes)
      ((k.blocks (BBLOCK b sb.ninodes)).setBit (b % BPB))) b (Bytes.zero BSIZE)
    journal := k.journal.alloc sb b }

section
variable {sb : Superblock} {k : Kernel} {b : Nat}

theorem alloc_self : (k.alloc sb b).blocks b = Bytes.zero BSIZE := update_self _ _ _

theorem alloc_other {x : Nat} (different : x ≠ b) (notBitmap : x ≠ BBLOCK b sb.ninodes) :
    (k.alloc sb b).blocks x = k.blocks x := by
  simp only [Kernel.alloc]
  rw [update_of_ne different,update_of_ne notBitmap]

theorem alloc_data (inside : b < sb.size) {x : Nat} (data : dataStart sb ≤ x) (different : x ≠ b) :
    (k.alloc sb b).blocks x = k.blocks x := by
  have := BBLOCK_lt inside
  exact alloc_other different (by omega)

theorem alloc_one (data : dataStart sb ≤ b) : (k.alloc sb b).blocks 1 = k.blocks 1 := by
  have := three_lt_dataStart sb
  exact alloc_other (by omega) (one_ne_BBLOCK b)

theorem alloc_disk (data : dataStart sb ≤ b) {i : Nat} (inside : i < sb.ninodes) :
    diskInode (k.alloc sb b).blocks i = diskInode k.blocks i := by
  have := IBLOCK_lt_dataStart inside
  rw [diskInode,alloc_other (by omega) (IBLOCK_ne_BBLOCK inside b)]
  rfl

theorem alloc_marked (data : dataStart sb ≤ b) {c : Nat} (inside : c < sb.size) :
    marked sb (k.alloc sb b).blocks c = (decide (c = b) || marked sb k.blocks c) := by
  rw [Kernel.alloc,marked_data _ data inside,marked_setBit]

end

/-- The empty slot `r` of the inode in entry `e` gets a block `b` that was free. -/
structure Grows (sb : Superblock) (e : Entry) (r b : Nat) (k k' : Kernel) : Prop where
  super : k'.blocks 1 = k.blocks 1
  marks : ∀ c, c < sb.size → marked sb k'.blocks c = (decide (c = b) || marked sb k.blocks c)
  disk : ∀ i, i < sb.ninodes → diskInode k'.blocks i = diskInode k.blocks i
  entries : ∀ e', (k'.icache e').inum = (k.icache e').inum ∧ (k'.icache e').ref = (k.icache e').ref ∧
    (k'.icache e').valid = (k.icache e').valid
  others : ∀ e', e' ≠ e → (k'.icache e').din = (k.icache e').din
  bare : (k'.icache e).din.bare = (k.icache e).din.bare
  fits : (k'.icache e).din.Fits
  addrs : ∀ q, q ≤ NDIRECT → q ≠ r → (k'.icache e).din.addrs q = (k.icache e).din.addrs q
  slots : ∀ q, slot k'.blocks (k'.icache e).din q = if q = r then b else slot k.blocks (k.icache e).din q
  kept : ∀ x, dataStart sb ≤ x → x ≠ b → x ≠ (k.icache e).din.addrs NDIRECT → k'.blocks x = k.blocks x
  zeros : k'.blocks b = Bytes.zero BSIZE

section
variable {sb : Superblock} {k k' : Kernel} {e : Entry} {i r b : Nat}

theorem Grows.holds (grows : Grows sb e r b k k') (e' : Entry) (j : Nat) : Holds k'.icache e' j ↔ Holds k.icache e' j := by
  obtain ⟨inum,ref,valid⟩ := grows.entries e'
  simp only [Holds,inum,ref,valid]

theorem Grows.din_other (grows : Grows sb e r b k k') (holds : Holds k.icache e i) {j : Nat} (inside : j < sb.ninodes)
    (different : j ≠ i) : din k' j = din k j := by
  refine current_congr (grows.holds · j) (fun e' holds' => grows.others e' ?_) (grows.disk j inside)
  rintro rfl
  exact different (holds'.2.1.symm.trans holds.2.1)

theorem Grows.type (grows : Grows sb e r b k k') : (k'.icache e).din.type = (k.icache e).din.type :=
  congrArg (fun d => d.type) grows.bare

theorem Grows.unique (grows : Grows sb e r b k k') (unique : Unique k.icache) : Unique k'.icache := by
  intro e₁ e₂ first second same
  rw [(grows.entries e₁).2.1] at first
  rw [(grows.entries e₂).2.1] at second
  rw [(grows.entries e₁).1,(grows.entries e₂).1] at same
  exact unique e₁ e₂ first second same

section
variable (sound : Sound sb k) (holds : Holds k.icache e i) (typed : (k.icache e).din.type ≠ 0)
  (clear : marked sb k.blocks b = false) (below : b < sb.size) (grows : Grows sb e r b k k')
include sound holds typed clear below grows

theorem Grows.slot_other {j : Nat} (inside : j < sb.ninodes) (typed' : (din k j).type ≠ 0) (different : j ≠ i) (q : Nat) :
    slot k'.blocks (din k' j) q = slot k.blocks (din k j) q := by
  have mine := sound.here holds
  have low := sound.low holds
  rw [grows.din_other holds inside different]
  refine slot_congr rfl (fun some => ?_) q
  have indirect : slot k.blocks (din k j) NDIRECT = (din k j).addrs NDIRECT := slot_direct (Nat.le_refl _)
  have held := sound.held inside typed' (r := NDIRECT) (by rw [indirect]; exact some)
  rw [indirect] at held
  refine grows.kept _ held.1 ?_ (fun same => ?_)
  · rw [← indirect]
    exact sound.fresh clear below inside typed' _
  · -- the indirect blocks of two inodes are different
    refine different (sound.apart inside typed' low (by rw [mine]; exact typed) (r := NDIRECT) (q := NDIRECT)
      (by rw [indirect]; exact some) ?_).1
    rw [indirect,mine,slot_direct (Nat.le_refl _),same]

theorem Grows.own_eq (x : Nat × Nat) : own sb k' x = if x = (i,r) then b else own sb k x := by
  have mine := sound.here holds
  have mine' : din k' i = (k'.icache e).din :=
    current_cached (grows.unique sound.unique) ((grows.holds e i).mpr holds)
  have low := sound.low holds
  obtain ⟨j,q⟩ := x
  by_cases same : j = i
  · subst same
    have typed' : (din k' j).type ≠ 0 := by
      rw [mine',grows.type]
      exact typed
    rw [own_of low typed',mine',grows.slots,own_of low (by rw [mine]; exact typed),mine]
    simp only [Prod.mk.injEq,true_and]
  · have notHere : (j,q) ≠ (i,r) := by simp [same]
    rw [if_neg notHere,Fs.own,Fs.own]
    by_cases inside : j < sb.ninodes
    · rw [grows.din_other holds inside same]
      by_cases typed' : (din k j).type ≠ 0
      · rw [if_pos ⟨inside,typed'⟩,if_pos ⟨inside,typed'⟩]
        have slots := grows.slot_other sound holds typed clear below inside typed' same q
        rwa [grows.din_other holds inside same] at slots
      · rw [if_neg (fun h => typed' h.2),if_neg (fun h => typed' h.2)]
    · rw [if_neg (fun h => inside h.1),if_neg (fun h => inside h.1)]

theorem Grows.keeps_sound : Sound sb k' := by
  have dataB := sound.data clear below
  have := three_lt_dataStart sb
  refine ⟨by rw [grows.super]; exact sound.super,sound.small,sound.layout,fun c low inside => ?_,?_,grows.unique sound.unique,
    fun e' used => ?_,fun e' => ?_⟩
  · rw [grows.marks c inside,sound.reserved c low inside]
    simp
  · refine sound.owned.take (x := (i,r)) clear dataB below (by omega) ?_ (fun y other => ?_) (fun c _ high => ?_)
    · rw [grows.own_eq sound holds typed clear below,if_pos rfl]
    · rw [grows.own_eq sound holds typed clear below,if_neg other]
    · exact grows.marks c (by omega)
  · rw [(grows.entries e').1]
    rw [(grows.entries e').2.1] at used
    exact sound.inside e' used
  · by_cases same : e' = e
    · rw [same]
      exact grows.fits
    · rw [grows.others e' same]
      exact sound.fits e'

theorem Grows.bytes (empty : slot k.blocks (k.icache e).din r = 0) {j : Nat} (inside : j < sb.ninodes)
    (typed' : (din k j).type ≠ 0) (n : Nat) : byteAt k'.blocks (din k' j) n = byteAt k.blocks (din k j) n := by
  have mine := sound.here holds
  have mine' : din k' i = (k'.icache e).din :=
    current_cached (grows.unique sound.unique) ((grows.holds e i).mpr holds)
  have low := sound.low holds
  have typedI : (din k i).type ≠ 0 := by rw [mine]; exact typed
  have keeps {j q : Nat} (inside : j < sb.ninodes) (typed' : (din k j).type ≠ 0) (dataSlot : q ≠ NDIRECT)
      (some : slot k.blocks (din k j) q ≠ 0) : k'.blocks (slot k.blocks (din k j) q) = k.blocks (slot k.blocks (din k j) q) := by
    refine grows.kept _ (sound.held inside typed' some).1
      (sound.fresh clear below inside typed' q) (fun same => ?_)
    refine dataSlot (sound.apart inside typed' low typedI (q := NDIRECT) some ?_).2
    rw [same,mine,slot_direct (Nat.le_refl _)]
  by_cases same : j = i
  · subst same
    rw [mine',mine]
    by_cases here : slotOf (n / BSIZE) = r
    · -- the new block is zeros, and so was the hole
      have before : blockOf k.blocks (k.icache e).din (n / BSIZE) = 0 := by
        rw [blockOf,here]
        exact empty
      have after : blockOf k'.blocks (k'.icache e).din (n / BSIZE) = b := by
        rw [blockOf,grows.slots,if_pos here]
      rw [byteAt,byteAt,before,if_pos rfl,after,grows.zeros]
      split
      · rfl
      · exact Bytes.get_zero _
    · have slots : blockOf k'.blocks (k'.icache e).din (n / BSIZE) = blockOf k.blocks (k.icache e).din (n / BSIZE) := by
        rw [blockOf,grows.slots,if_neg here]
        rfl
      rw [byteAt,byteAt,slots]
      split
      · rfl
      · rename_i some
        have keep := keeps inside typed' (slotOf_ne_indirect (n / BSIZE)) (by rw [mine]; exact some)
        rw [mine] at keep
        rw [blockOf,keep]
  · refine byteAt_congr (fun bn => ?_) (fun bn some => ?_) n
    · exact grows.slot_other sound holds typed clear below inside typed' same _
    · exact keeps inside typed' (slotOf_ne_indirect bn) some

end

end

def Kernel.attach (sb : Superblock) (k : Kernel) (e : Entry) (r b : Nat) : Kernel :=
  (k.alloc sb b).setInode e { k.icache e with din := (k.icache e).din.setAddr r b }

def Kernel.enter (sb : Superblock) (k : Kernel) (a idx b : Nat) : Kernel :=
  { (k.alloc sb b).setBlock a (setWord (k.blocks a) idx b) with journal := (k.alloc sb b).journal.write a }

section
variable {sb : Superblock} {k : Kernel} {e : Entry} {i b : Nat}

theorem Sound.indirect (sound : Sound sb k) (holds : Holds k.icache e i) (typed : (k.icache e).din.type ≠ 0)
    (some : (k.icache e).din.addrs NDIRECT ≠ 0) :
    dataStart sb ≤ (k.icache e).din.addrs NDIRECT ∧ (k.icache e).din.addrs NDIRECT < sb.size ∧
      marked sb k.blocks ((k.icache e).din.addrs NDIRECT) = true := by
  have mine := sound.here holds
  have low := sound.low holds
  have indirect : slot k.blocks (din k i) NDIRECT = (k.icache e).din.addrs NDIRECT := by
    rw [mine]
    exact slot_direct (Nat.le_refl _)
  have held := sound.held low (by rw [mine]; exact typed) (r := NDIRECT) (by rw [indirect]; exact some)
  rwa [indirect] at held

theorem attach_grows {r : Nat} (sound : Sound sb k) (holds : Holds k.icache e i) (typed : (k.icache e).din.type ≠ 0)
    (clear : marked sb k.blocks b = false) (below : b < sb.size) (low : r ≤ NDIRECT)
    (empty : (k.icache e).din.addrs r = 0) : Grows sb e r b k (k.attach sb e r b) := by
  have dataB := sound.data clear below
  have small := sound.small
  have here : ((k.attach sb e r b).icache e) = { k.icache e with din := (k.icache e).din.setAddr r b } :=
    update_self _ _ _
  have other {e' : Entry} (different : e' ≠ e) : (k.attach sb e r b).icache e' = k.icache e' :=
    update_of_ne different _ _
  refine ⟨alloc_one dataB,fun c inside => alloc_marked dataB inside,fun j inside => alloc_disk dataB inside,
    fun e' => ?_,fun e' different => by rw [other different],?_,?_,fun q _ different => ?_,fun q => ?_,
    fun x data different _ => alloc_data (by omega) data different,alloc_self⟩
  · by_cases same : e' = e
    · rw [same,here]
      exact ⟨rfl,rfl,rfl⟩
    · rw [other same]
      exact ⟨rfl,rfl,rfl⟩
  · rw [here]
    rfl
  · rw [here]
    exact (sound.fits e).setAddr low (by omega)
  · rw [here]
    exact update_of_ne different _ _
  · rw [here]
    show slot (k.alloc sb b).blocks ((k.icache e).din.setAddr r b) q = _
    have same : slot (k.alloc sb b).blocks (k.icache e).din q = slot k.blocks (k.icache e).din q := by
      refine slot_congr rfl (fun some => ?_) q
      have block := sound.indirect holds typed some
      refine alloc_data (by omega) block.1 fun isNew => ?_
      rw [isNew,clear] at block
      cases block.2.2
    rw [slot_setAddr low empty (fun _ => alloc_self),same]

theorem enter_grows {idx : Nat} (sound : Sound sb k) (holds : Holds k.icache e i) (typed : (k.icache e).din.type ≠ 0)
    (clear : marked sb k.blocks b = false) (below : b < sb.size) (inBlock : idx < NINDIRECT)
    (some : (k.icache e).din.addrs NDIRECT ≠ 0) :
    Grows sb e (NDIRECT + 1 + idx) b k (k.enter sb ((k.icache e).din.addrs NDIRECT) idx b) := by
  have dataB := sound.data clear below
  have small := sound.small
  have block := sound.indirect holds typed some
  have different : (k.icache e).din.addrs NDIRECT ≠ b := by
    intro same
    rw [same,clear] at block
    cases block.2.2
  generalize indirect : (k.icache e).din.addrs NDIRECT = a at *
  have notHere {x : Nat} (apart : x ≠ a) : (k.enter sb a idx b).blocks x = (k.alloc sb b).blocks x :=
    update_of_ne apart _ _
  have here : (k.enter sb a idx b).blocks a = setWord (k.blocks a) idx b := update_self _ _ _
  have := three_lt_dataStart sb
  refine ⟨(notHere (by omega)).trans (alloc_one dataB),fun c inside => ?_,fun j inside => ?_,
    fun e' => ⟨rfl,rfl,rfl⟩,fun e' _ => rfl,rfl,sound.fits e,fun q _ _ => rfl,fun q => ?_,fun x data apart apart' => ?_,
    (notHere (Ne.symm different)).trans alloc_self⟩
  · have marks := alloc_marked (k := k) dataB inside
    rw [← marks]
    exact marked_data _ block.1 inside
  · have inode := alloc_disk (k := k) dataB inside
    rw [← inode]
    have := IBLOCK_lt_dataStart inside
    exact disk_update (by omega)
  · show slot (k.enter sb a idx b).blocks (k.icache e).din q = _
    by_cases direct : q ≤ NDIRECT
    · rw [slot_direct direct,slot_direct direct,if_neg (by omega)]
    · rw [slot_entry (by omega) (by rw [indirect]; exact some),slot_entry (by omega) (by rw [indirect]; exact some),
        indirect,here]
      by_cases same : q = NDIRECT + 1 + idx
      · have index : q - NDIRECT - 1 = idx := by omega
        rw [if_pos same,index]
        exact word_setWord_same _ (by simp only [NINDIRECT,BSIZE] at *; omega) (by omega)
      · rw [if_neg same]
        exact word_setWord_ne _ _ (by omega)
  · exact (notHere (by rw [← indirect]; exact apart')).trans (alloc_data (by omega) data apart)

end

end Osce.Fs
