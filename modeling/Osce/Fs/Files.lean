import Osce.Fs.Content

/-!
Files as byte arrays. Where an inode has a block for every byte and no other blocks,
`writei` replaces the bytes of a range and `readi` returns those of a range.
-/
namespace Osce.Fs
open Osce.Lib Osce.Layout Osce.Log Prog List
open Bytes (word setWord word_zero word_setWord_same word_setWord_ne)

/-- Blocks are there exactly for the bytes below the size. -/
structure NoHoles (slots : Nat → Nat) (size : Nat) : Prop where
  small : size ≤ MAXFILE * BSIZE
  content : ∀ bn, bn < MAXFILE → (slots (slotOf bn) ≠ 0 ↔ bn * BSIZE < size)
  indirect : slots NDIRECT ≠ 0 ↔ NDIRECT * BSIZE < size

theorem take_drop_map (f : Nat → UInt8) (size off n : Nat) :
    (((range size).map f).drop off).take n = (range (min n (size - off))).map fun t => f (off + t) := by
  apply ext_getElem
  · simp only [length_take,length_drop,length_map,length_range]
  · intro j inside _
    simp

theorem View.readi_present (sb : Superblock) {v : View} {e : Entry} {off n : Nat}
    (notDevice : (v.icache e).din.type ≠ T_DEV) (inFile : (v.icache e).din.size ≤ MAXFILE * BSIZE)
    (small : off < 2 ^ 32) (short : n < 2 ^ 32)
    (there : ∀ r, r ∈ span off (min n ((v.icache e).din.size - off)) → v.cell e r ≠ 0) :
    v.readi sb e off n =
      .ok (if off > (v.icache e).din.size ∨ 2 ^ 32 ≤ off + n then none
        else some ((((range (v.icache e).din.size).map (v.bytes (v.icache e).inum)).drop off).take n),v) := by
  rw [readi,if_neg notDevice]
  by_cases refused : off > (v.icache e).din.size ∨ 2 ^ 32 ≤ off + n
  · rw [if_pos (by omega),if_pos refused]
  · have length : (if off + n > (v.icache e).din.size then (v.icache e).din.size - off else n) =
        min n ((v.icache e).din.size - off) := by
      split <;> omega
    rw [if_neg (by omega),if_neg refused,length,take_drop_map]
    simp only
    rw [readi_from_present _ off _ (Nat.le_refl _) (by omega) there]
    rfl

def viewOf (sb : Superblock) (k : Kernel) : View where
  icache := k.icache
  disk := diskInode k.blocks
  marks := marked sb k.blocks
  entry := fun i => word (k.blocks ((din k i).addrs NDIRECT))
  bytes := fun i => byteAt k.blocks (din k i)
  devsw := k.devsw
  journal := k.journal

theorem shows_viewOf {sb : Superblock} {k : Kernel} (sound : Sound sb k) (idle : ∀ s, k.busy s = false) :
    Shows sb k (viewOf sb k) :=
  ⟨sound,idle,rfl,fun _ _ => rfl,fun _ _ => rfl,fun _ _ _ _ => rfl,fun _ _ _ _ => rfl,rfl,rfl⟩

section
variable {slots slots' : Nat → Nat} {size off n : Nat}

theorem NoHoles.there (noHoles : NoHoles slots size) (inside : off + n ≤ size) {r : Nat} (needed : r ∈ View.span off n) :
    slots r ≠ 0 := by
  obtain ⟨bn,inBlocks,inNeeds⟩ := Finset.mem_biUnion.mp needed
  have small := noHoles.small
  have low := View.blocksOf_lt (by omega) inBlocks
  have below : bn * BSIZE < size := by
    rw [mem_blocksOf] at inBlocks
    simp only [BSIZE] at *
    omega
  rcases View.mem_needs.mp inNeeds with rfl | ⟨high,rfl⟩
  · exact (noHoles.content bn low).mpr below
  · exact noHoles.indirect.mpr (lt_of_le_of_lt (Nat.mul_le_mul_right BSIZE high) below)

theorem NoHoles.write (noHoles : NoHoles slots size) (start : off ≤ size) (inFile : off + n ≤ MAXFILE * BSIZE)
    (filled : ∀ r, slots' r ≠ 0 ↔ slots r ≠ 0 ∨ r ∈ View.span off n) : NoHoles slots' (max size (off + n)) := by
  have small := noHoles.small
  refine ⟨by omega,fun bn low => ?_,?_⟩
  · rw [filled,noHoles.content bn low]
    have inSpan : slotOf bn ∈ View.span off n ↔ bn ∈ blocksOf off n := by
      constructor
      · intro member
        obtain ⟨bn',inBlocks,inNeeds⟩ := Finset.mem_biUnion.mp member
        have same := (View.mem_needs.mp inNeeds).resolve_right fun indirect => slotOf_ne_indirect bn indirect.2
        rwa [slotOf_inj same]
      · exact fun member => Finset.mem_biUnion.mpr ⟨bn,member,View.slotOf_mem_needs bn⟩
    rw [inSpan,mem_blocksOf]
    simp only [BSIZE] at *
    omega
  · rw [filled,noHoles.indirect]
    have inSpan : NDIRECT ∈ View.span off n ↔ n ≠ 0 ∧ NDIRECT ≤ (off + n - 1) / BSIZE := by
      constructor
      · intro member
        obtain ⟨bn,inBlocks,inNeeds⟩ := Finset.mem_biUnion.mp member
        obtain ⟨some,_,last⟩ := mem_blocksOf.mp inBlocks
        have high := ((View.mem_needs.mp inNeeds).resolve_left (slotOf_ne_indirect bn).symm).1
        exact ⟨some,high.trans last⟩
      · rintro ⟨some,reaches⟩
        have last : (off + n - 1) / BSIZE ∈ blocksOf off n :=
          mem_blocksOf.mpr ⟨some,Nat.div_le_div_right (by omega),Nat.le_refl _⟩
        exact Finset.mem_biUnion.mpr ⟨_,last,View.mem_needs.mpr (.inr ⟨reaches,rfl⟩)⟩
    rw [inSpan]
    simp only [BSIZE,NDIRECT] at *
    omega

theorem map_overwrite (f : Nat → UInt8) (src : List UInt8) (start : off ≤ size) :
    (range (max size (off + src.length))).map (overwrite f off src) =
      ((range size).map f).take off ++ src ++ ((range size).map f).drop (off + src.length) := by
  apply ext_getElem
  · simp only [length_map,length_range,length_append,length_take,length_drop]
    omega
  · intro j inside _
    simp only [length_map,length_range] at inside
    rw [getElem_map,getElem_range,overwrite]
    by_cases before : j < off
    · rw [if_neg (by omega),getElem_append_left (by simp; omega),getElem_append_left (by simp; omega)]
      simp
    · by_cases within : j < off + src.length
      · rw [if_pos (by omega),getElem_append_left (by simp; omega),getElem_append_right (by simp; omega)]
        have index : j - off < src.length := by omega
        simp [getD_eq_getElem?_getD,getElem?_eq_getElem index,Nat.min_eq_left start]
      · rw [if_neg (by omega),getElem_append_right (by simp; omega)]
        simp only [getElem_drop,getElem_map,getElem_range,length_append,length_take,length_map,
          length_range,Nat.min_eq_left start]
        congr 1
        omega

end

/-- The entry holds a file or directory without holes in a sound state, and no buffer is
    in use. -/
structure Represented (sb : Superblock) (k : Kernel) (e : Entry) (i : Nat) : Prop where
  sound : Sound sb k
  idle : ∀ s, k.busy s = false
  holds : Holds k.icache e i
  typed : (k.icache e).din.type ≠ 0
  notDevice : (k.icache e).din.type ≠ T_DEV
  noHoles : NoHoles (slot k.blocks (k.icache e).din) (k.icache e).din.size

/-- There are blocks for the slots that a write needs and that are empty. -/
def EnoughBlocks (sb : Superblock) (k : Kernel) (e : Entry) (off n : Nat) : Prop :=
  ((View.span off n).filter fun r => slot k.blocks (k.icache e).din r = 0).card ≤
    ((Finset.range sb.size).filter fun b => marked sb k.blocks b = false).card

section
variable {sb : Superblock} {k : Kernel} {e : Entry} {i : Nat}

theorem Represented.shows_ (rep : Represented sb k e i) : Shows sb k (viewOf sb k) := shows_viewOf rep.sound rep.idle

theorem Represented.fields (rep : Represented sb k e i) : din k i = (k.icache e).din := current_cached rep.sound.unique rep.holds

theorem Represented.cell (rep : Represented sb k e i) (r : Nat) : (viewOf sb k).cell e r = slot k.blocks (k.icache e).din r := by
  rw [View.cell]
  simp only [viewOf,rep.holds.2.1,rep.fields]
  rfl

theorem Represented.reads (rep : Represented sb k e i) {off n : Nat} (small : off < 2 ^ 32) (short : n < 2 ^ 32) :
    (exec Kernel.handle (readi e off n) k).map Prod.fst =
      .ok (if off > (k.icache e).din.size ∨ 2 ^ 32 ≤ off + n then none
        else some (((contents k.blocks (k.icache e).din).drop off).take n)) := by
  have there (r : Nat) (needed : r ∈ View.span off (min n ((k.icache e).din.size - off))) : (viewOf sb k).cell e r ≠ 0 := by
    rw [rep.cell]
    by_cases inside : off ≤ (k.icache e).din.size
    · exact rep.noHoles.there (by omega) needed
    · rw [show min n ((k.icache e).din.size - off) = 0 by omega] at needed
      simp [View.span,blocksOf] at needed
  have read := View.readi_present sb (v := viewOf sb k) rep.notDevice rep.noHoles.small small short there
  have run := refines_readi off n rep.shows_ rep.holds rep.typed
  rw [read] at run
  obtain ⟨k',executed,shows_⟩ := run
  -- nothing is logged, so nothing has to fit into the log
  obtain ⟨sectors,logged,_,handled⟩ := exec_handle_of_ample _ executed
  have same : k'.journal = k.journal := shows_.journal.symm
  obtain rfl : sectors = [] := by simpa [same] using logged
  have bytes : (viewOf sb k).bytes (k.icache e).inum = byteAt k.blocks (k.icache e).din := by
    simp only [viewOf,rep.holds.2.1,rep.fields]
  rw [handled,contents,← bytes]
  rfl

theorem Represented.writes (rep : Represented sb k e i) {off : Nat} {src : List UInt8}
    (writable : View.Writable off src.length (k.icache e).din.size)
    (blocks : EnoughBlocks sb k e off src.length) (inTrans : 1 ≤ k.journal.outstanding) :
    ∃ k', exec Kernel.ample (writei e src off) k = .ok (some src.length,k') ∧ Represented sb k' e i ∧
      (k'.icache e).din.size = max (k.icache e).din.size (off + src.length) ∧
      contents k'.blocks (k'.icache e).din =
        (contents k.blocks (k.icache e).din).take off ++ src ++ (contents k.blocks (k.icache e).din).drop (off + src.length) ∧
      ∀ j, j < sb.ninodes → j ≠ i → din k' j = din k j ∧
        ((din k j).type ≠ 0 → contents k'.blocks (din k' j) = contents k.blocks (din k j)) := by
  have shows_ := rep.shows_
  have enough : (viewOf sb k).lacks e (View.span off src.length) ≤ (viewOf sb k).clear sb := by
    simp only [View.lacks,rep.cell]
    exact blocks
  obtain ⟨⟨r,v'⟩,written⟩ := View.writei_total rep.notDevice shows_.zero writable enough inTrans
  obtain ⟨rfl,wrote⟩ := View.writei_wrote rep.notDevice shows_.zero writable written
  have run := refines_writei off src shows_ rep.holds rep.typed (by have := writable.2.1; omega)
  rw [written] at run
  obtain ⟨k',executed,shows'⟩ := run
  have inode := wrote.inode
  have holds' : Holds v'.icache e i := by
    rw [Holds,inode]
    exact rep.holds
  have sound' := shows'.sound
  have low : i < sb.ninodes := by
    rw [← rep.holds.2.1]
    exact rep.sound.inside e rep.holds.1
  rw [shows'.icache] at inode
  have size : (k'.icache e).din.size = max (k.icache e).din.size (off + src.length) := by rw [inode]; rfl
  have typed : (k'.icache e).din.type ≠ 0 := by rw [inode]; exact rep.typed
  have mine : Fs.din k' i = (k'.icache e).din := current_cached sound'.unique (by rw [← shows'.icache]; exact holds')
  have number : ((viewOf sb k).icache e).inum = i := rep.holds.2.1
  have kept {j : Nat} (inside : j < sb.ninodes) (other : j ≠ i) : Fs.din k' j = Fs.din k j := by
    rw [← shows'.din inside,wrote.din (by rw [number]; exact other),shows_.din inside]
  refine ⟨k',executed,?_,size,?_,fun j inside other => ?_⟩
  · refine ⟨sound',shows'.idle,by rw [← shows'.icache]; exact holds',typed,by rw [inode]; exact rep.notDevice,?_⟩
    rw [size]
    refine rep.noHoles.write writable.1 writable.2.2 fun r => ?_
    have cell := shows'.cell holds' r
    rw [shows'.slots i low (by rw [mine]; exact typed),mine] at cell
    rw [← cell,wrote.cells,rep.cell]
  · have bytes : byteAt k'.blocks (k'.icache e).din = overwrite (byteAt k.blocks (k.icache e).din) off src := by
      funext n
      have here : (viewOf sb k).bytes i = byteAt k.blocks (k.icache e).din := by
        simp only [viewOf,rep.fields]
      rw [← mine,← shows'.bytes i low (by rw [mine]; exact typed),wrote.bytes,number,Function.update_self,here]
    rw [contents,contents,bytes,size]
    exact map_overwrite _ _ writable.1
  · refine ⟨kept inside other,fun typed' => ?_⟩
    have bytes : byteAt k'.blocks (Fs.din k' j) = byteAt k.blocks (Fs.din k j) := by
      funext n
      rw [← shows'.bytes j inside (by rw [kept inside other]; exact typed'),wrote.bytes,number,Function.update_of_ne other]
      rfl
    rw [contents,contents,bytes,kept inside other]

theorem Represented.refused (rep : Represented sb k e i) {off : Nat} {src : List UInt8} (small : off < 2 ^ 32)
    (short : src.length < 2 ^ 32) (refused : ¬ View.Writable off src.length (k.icache e).din.size) :
    exec Kernel.handle (writei e src off) k = .ok (none,k) := by
  have opened : exec Kernel.handle (writei e src off) k = exec Kernel.handle (if (k.icache e).din.type = T_DEV then _ else _) k := rfl
  rw [opened,if_neg rep.notDevice]
  by_cases outside : off > (k.icache e).din.size ∨ (off + src.length) % 2 ^ 32 < off
  · rw [if_pos outside]
    rfl
  · have large : (off + src.length) % 2 ^ 32 > MAXFILE * BSIZE := by
      by_contra fits
      exact refused ⟨by omega,by omega,by omega⟩
    rw [if_neg outside,if_pos large]
    rfl

theorem Shows.logged {v v' : View} {off : Nat} {src : List UInt8} (shows_ : Shows sb k v')
    (holds : Holds v'.icache e i) (typed : (v'.icache e).din.type ≠ 0) (wrote : View.Wrote e off src v v') :
    (blocksOf off src.length).card ≤ v'.journal.lh.length := by
  have sound := shows_.sound
  have mine : Fs.din k i = (v'.icache e).din := by
    rw [shows_.icache] at holds ⊢
    exact current_cached sound.unique holds
  have low : i < sb.ninodes := by
    rw [shows_.icache] at holds
    rw [← holds.2.1]
    exact sound.inside e holds.1
  have cell (r : Nat) : v'.cell e r = slot k.blocks (Fs.din k i) r := by
    rw [shows_.cell holds,shows_.slots i low (by rw [mine]; exact typed)]
  refine (Finset.card_le_card_of_injOn (t := v'.journal.lh.toFinset) (fun bn => v'.cell e (slotOf bn))
    (fun bn member => ?_) fun bn member bn' _ same => ?_).trans (toFinset_card_le _)
  · exact mem_toFinset.mpr (wrote.logged bn member)
  · have held : v'.cell e (slotOf bn) ≠ 0 :=
      (wrote.cells _).mpr (.inr (Finset.mem_biUnion.mpr ⟨bn,member,View.slotOf_mem_needs bn⟩))
    simp only [cell] at held same
    exact slotOf_inj (sound.apart low (by rw [mine]; exact typed) low (by rw [mine]; exact typed) held same).2

end

def emptyFile : Dinode := { Dinode.zero with type := T_FILE, nlink := 1 }

def sampleSuper : Superblock := ⟨1024,965,200,30⟩

/-- An image of 1024 blocks with an empty file as inode 2, which is in the cache. -/
def sample : Kernel where
  blocks s :=
    if s = 1 then sampleSuper.toBlock (Bytes.zero BSIZE)
    else if s = IBLOCK 2 then putDinode (Bytes.zero BSIZE) 2 emptyFile
    else if s = 28 then ⟨fun i => if i.val < 3 then 255 else if i.val = 3 then 31 else 0⟩
    else Bytes.zero BSIZE
  busy _ := false
  icache e := if e.val = 0 then ⟨2,1,true,emptyFile⟩ else ⟨0,0,false,Dinode.zero⟩
  devsw _ := none
  journal := ⟨⟨994,30⟩,[],1,[]⟩

/-- The image with some sectors in the transaction already. -/
def filled (n : Nat) : Kernel := { sample with journal := { sample.journal with lh := List.range' 100 n } }

end Osce.Fs
