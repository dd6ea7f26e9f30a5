import Osce.Fs.Refine

/-!
What a read or a write does to the view: which slots are filled, which bytes change and
which sectors are logged.
-/
namespace Osce.Fs
open Osce.Lib Osce.Layout Osce.Log Prog Finset

/-- Sectors have been logged in between. -/
structure Journal.Adds (j j' : Journal) : Prop where
  outstanding : j'.outstanding = j.outstanding
  lh : j.lh ⊆ j'.lh

theorem Journal.Adds.write {j j' : Journal} (adds : Adds j j') (s : Nat) : Adds j (j'.write s) :=
  ⟨adds.outstanding,fun _ member => (mem_absorb _ _ _).mpr (.inl (adds.lh member))⟩

theorem Journal.Adds.alloc {j j' : Journal} (adds : Adds j j') (sb : Superblock) (b : Nat) : Adds j (j'.alloc sb b) :=
  (adds.write (BBLOCK b sb.ninodes)).write b

namespace View

def lacks (v : View) (e : Entry) (S : Finset Nat) : Nat := (S.filter fun r => v.cell e r = 0).card

def clear (sb : Superblock) (v : View) : Nat := ((Finset.range sb.size).filter fun b => v.marks b = false).card

section
variable {sb : Superblock} {e : Entry} {S : Finset Nat} {v v' : View}

theorem Works.fields (works : Works sb e S v v') :
    v'.disk = v.disk ∧ v'.devsw = v.devsw ∧ ∀ j, j ≠ (v.icache e).inum → v'.entry j = v.entry j ∧ v'.bytes j = v.bytes j := by
  induction works with
  | refl => exact ⟨rfl,rfl,fun _ _ => ⟨rfl,rfl⟩⟩
  | attach before _ _ _ _ _ _ ih =>
    refine ⟨ih.1,ih.2.1,fun j other => ⟨?_,(ih.2.2 j other).2⟩⟩
    simp only [View.attach,before.fixed.1]
    split
    · exact (Function.update_of_ne other _ _).trans (ih.2.2 j other).1
    · exact (ih.2.2 j other).1
  | enter before _ _ _ _ _ _ _ ih =>
    refine ⟨ih.1,ih.2.1,fun j other => ⟨?_,(ih.2.2 j other).2⟩⟩
    simp only [View.enter,before.fixed.1]
    exact (Function.update_of_ne other _ _).trans (ih.2.2 j other).1
  | put _ _ before _ _ ih =>
    refine ⟨ih.1,ih.2.1,fun j other => ⟨(ih.2.2 j other).1,?_⟩⟩
    simp only [View.put,before.fixed.1]
    exact (Function.update_of_ne other _ _).trans (ih.2.2 j other).2

theorem Works.cell (works : Works sb e S v v') (r : Nat) :
    (v.cell e r ≠ 0 → v'.cell e r = v.cell e r) ∧ (v'.cell e r ≠ 0 → v.cell e r ≠ 0 ∨ r ∈ S) := by
  induction works with
  | refl => exact ⟨fun _ => rfl,.inl⟩
  | @attach v' q b _ member low empty _ _ _ ih =>
    have before : v'.cell e q = 0 := by rw [cell_direct low,empty]
    rw [cell_attach low empty]
    by_cases here : r = q
    · rw [if_pos here,here]
      refine ⟨fun some => ?_,fun _ => .inr member⟩
      rw [here] at ih
      rw [ih.1 some] at before
      exact absurd before some
    · rw [if_neg here]
      exact ih
  | @enter v' idx b _ member _ some empty _ _ _ ih =>
    have before : v'.cell e (NDIRECT + 1 + idx) = 0 := by rw [cell_entry _ some,empty]
    rw [cell_enter some]
    by_cases here : r = NDIRECT + 1 + idx
    · rw [if_pos here,here]
      refine ⟨fun held => ?_,fun _ => .inr member⟩
      rw [here] at ih
      rw [ih.1 held] at before
      exact absurd before held
    · rw [if_neg here]
      exact ih
  | put _ _ _ _ _ ih => exact ih

theorem Works.journal (works : Works sb e S v v') : v.journal.Adds v'.journal := by
  induction works with
  | refl => exact ⟨rfl,fun _ => id⟩
  | attach _ _ _ _ _ _ _ ih => exact ih.alloc _ _
  | enter _ _ _ _ _ _ _ _ ih => exact (ih.alloc _ _).write _
  | put _ _ _ _ _ ih => exact ih.write _

theorem Works.enough (works : Works sb e S v v') (enough : v.lacks e S ≤ v.clear sb) : v'.lacks e S ≤ v'.clear sb := by
  -- one slot less is empty, one block less is free
  have step {v v' : View} {r b : Nat} (before : v.lacks e S ≤ v.clear sb) (member : r ∈ S) (empty : v.cell e r = 0)
      (isClear : v.marks b = false) (inside : b < sb.size) (positive : b ≠ 0)
      (cells : ∀ q, v'.cell e q = if q = r then b else v.cell e q) (marks : v'.marks = Function.update v.marks b true) :
      v'.lacks e S ≤ v'.clear sb := by
    have slots : (S.filter fun q => v'.cell e q = 0) = (S.filter fun q => v.cell e q = 0).erase r := by
      ext q
      simp only [mem_filter,mem_erase,cells]
      by_cases same : q = r
      · simp [same,positive]
      · simp [same]
    have blocks : ((range sb.size).filter fun c => v'.marks c = false) =
        ((range sb.size).filter fun c => v.marks c = false).erase b := by
      ext c
      simp only [mem_filter,mem_erase,marks,Function.update_apply]
      by_cases same : c = b
      · simp [same]
      · simp [same]
    rw [lacks,clear,slots,blocks,card_erase_of_mem (by simp [member,empty]),
      card_erase_of_mem (by simp [inside,isClear])]
    exact Nat.sub_le_sub_right before 1
  induction works with
  | refl => exact enough
  | attach _ member low empty isClear inside positive ih =>
    exact step ih member (by rw [cell_direct low,empty]) isClear inside positive
      (fun q => cell_attach low empty) rfl
  | @enter v' idx b _ member _ held empty isClear inside positive ih =>
    exact step ih member (by rw [cell_entry _ held,empty]) isClear inside positive (fun q => cell_enter held) rfl
  | put _ _ _ _ _ ih => exact ih

theorem pick_total (free : 0 < v.clear sb) (inTrans : 1 ≤ v.journal.outstanding) :
    ∃ b, pick sb v.marks v.journal.outstanding = .ok b := by
  obtain ⟨c,member⟩ := card_pos.mp free
  obtain ⟨inside,isClear⟩ := mem_filter.mp member
  have found : ∃ b, freeBlock sb v.marks = some b := by
    cases first : freeBlock sb v.marks with
    | some b => exact ⟨b,rfl⟩
    | none =>
      have := List.find?_range_eq_none.mp first c (mem_range.mp inside)
      simp [isClear] at this
  obtain ⟨b,first⟩ := found
  refine ⟨b,?_⟩
  rw [pick,first]
  exact logging_ok inTrans

section
variable (zero : v.marks 0 = true) (enough : v.lacks e S ≤ v.clear sb) (inTrans : 1 ≤ v.journal.outstanding)
 
include enough inTrans

theorem pick_needed {r : Nat} (member : r ∈ S) (empty : v.cell e r = 0) :
    ∃ b, pick sb v.marks v.journal.outstanding = .ok b := by
  refine pick_total ?_ inTrans
  have : 0 < v.lacks e S := card_pos.mpr ⟨r,by simp [member,empty]⟩
  omega

include zero

theorem bmap_total {bn : Nat} (low : bn < MAXFILE) (needed : needs bn ⊆ S) : ∃ r, v.bmap sb e bn = .ok r := by
  unfold bmap
  by_cases direct : bn < NDIRECT
  · rw [if_pos direct]
    by_cases empty : (v.icache e).din.addrs bn = 0
    · rw [if_pos empty]
      have member : bn ∈ S := needed (by simp [needs,direct])
      obtain ⟨b,picked⟩ := pick_needed enough inTrans member (by rw [cell_direct (by omega),empty])
      rw [picked]
      exact ⟨_,rfl⟩
    · rw [if_neg empty]
      exact ⟨_,rfl⟩
  · have inBlock : bn - NDIRECT < NINDIRECT := by
      simp only [MAXFILE] at low
      omega
    have known : NDIRECT ∈ S := needed (by simp [needs,direct])
    have member : NDIRECT + 1 + (bn - NDIRECT) ∈ S := by
      refine needed ?_
      rw [show NDIRECT + 1 + (bn - NDIRECT) = bn + 1 by omega]
      simp [needs,direct]
    rw [if_neg direct,if_pos inBlock]
    have made : ∃ v₁, v.indirect sb e = .ok v₁ := by
      unfold indirect
      by_cases empty : (v.icache e).din.addrs NDIRECT = 0
      · rw [if_pos empty]
        obtain ⟨b,picked⟩ := pick_needed enough inTrans known (by rw [cell_direct (Nat.le_refl _),empty])
        rw [picked]
        exact ⟨_,rfl⟩
      · rw [if_neg empty]
        exact ⟨_,rfl⟩
    obtain ⟨v₁,made⟩ := made
    obtain ⟨works,held,_⟩ := indirect_works made zero known
    rw [made]
    show ∃ r, (if v₁.entry (v₁.icache e).inum (bn - NDIRECT) = 0 then _ else _) = Except.ok r
    by_cases empty : v₁.entry (v₁.icache e).inum (bn - NDIRECT) = 0
    · rw [if_pos empty]
      obtain ⟨b,picked⟩ := pick_needed (works.enough enough) (by rw [works.journal.outstanding]; exact inTrans) member
        (by rw [cell_entry _ held,empty])
      rw [picked]
      exact ⟨_,rfl⟩
    · rw [if_neg empty]
      exact ⟨_,rfl⟩

end

theorem bmap_fills {bn addr : Nat} (mapped : v.bmap sb e bn = .ok (addr,v')) (zero : v.marks 0 = true) {r : Nat}
    (needed : r ∈ needs bn) : v'.cell e r ≠ 0 := by
  obtain ⟨works,place,positive,_⟩ := bmap_works mapped zero
  rcases mem_needs.mp needed with rfl | ⟨high,rfl⟩
  · rw [← place]
    exact positive
  · -- an entry can only be there if the indirect block is
    rw [slotOf,if_neg (by omega)] at place
    rw [cell_direct (Nat.le_refl _)]
    intro none
    apply positive
    rw [place,cell,slotIn,if_neg (by omega),if_pos none]

theorem blocksOf_lt {off n bn : Nat} (inFile : off + n ≤ MAXFILE * BSIZE) (member : bn ∈ blocksOf off n) : bn < MAXFILE := by
  rw [mem_blocksOf] at member
  simp only [MAXFILE,NDIRECT,NINDIRECT,BSIZE] at *
  omega

theorem mem_rest_blocksOf {off n bn : Nat} (member : bn ∈ blocksOf off n) (later : bn ≠ off / BSIZE) :
    bn ∈ blocksOf (off + chunk off n) (n - chunk off n) := by
  rw [mem_blocksOf] at *
  simp only [chunk,BSIZE] at *
  omega

theorem writei_from_total (turns off : Nat) (src : List UInt8) (zero : v.marks 0 = true)
    (enough : v.lacks e S ≤ v.clear sb) (inTrans : 1 ≤ v.journal.outstanding)
    (inFile : off + src.length ≤ MAXFILE * BSIZE) (needed : span off src.length ⊆ S) :
    ∃ r, v.writei_from sb e turns off src = .ok r := by
  induction turns generalizing off src v with
  | zero => exact ⟨_,rfl⟩
  | succ turns ih =>
    rw [writei_from]
    by_cases done : src.length = 0
    · rw [if_pos done]
      exact ⟨_,rfl⟩
    · rw [if_neg done]
      have short := chunk_le off src.length
      obtain ⟨⟨addr,v₁⟩,mapped⟩ := bmap_total zero enough inTrans (blocksOf_lt inFile (first_mem_blocksOf off done))
        ((span_first off done).trans needed)
      obtain ⟨works,rfl,positive,_⟩ := bmap_works mapped zero
      have put := (Works.put off (src.take (chunk off src.length)) works (slotOf_mem_needs (off / BSIZE)) positive).mono
        ((span_first off done).trans needed)
      rw [mapped]
      show ∃ r, (logging v₁.journal.outstanding _ >>= _) = Except.ok r
      have inTrans₁ : 1 ≤ v₁.journal.outstanding := by rw [works.journal.outstanding]; exact inTrans
      rw [logging_ok inTrans₁]
      refine ih _ _ (put.marks zero) (put.enough enough) inTrans₁ (by rw [List.length_drop]; omega) ?_
      rw [List.length_drop]
      exact (span_rest off _).trans needed

/-- For each block that a write reaches there is a turn of its loop: the block is looked
    up, and then written. -/
theorem writei_from_turns (turns off : Nat) (src : List UInt8) {off' : Nat} (enough : src.length ≤ turns)
    (zero : v.marks 0 = true) (written : v.writei_from sb e turns off src = .ok (off',v')) {bn : Nat}
    (member : bn ∈ blocksOf off src.length) :
    ∃ (v₁ v₂ : View) (addr at_ : Nat) (part : List UInt8), v₁.marks 0 = true ∧ v₁.bmap sb e bn = .ok (addr,v₂) ∧
      Works sb e (span off src.length) (v₂.put e addr at_ part) v' := by
  induction turns generalizing off src v with
  | zero =>
    have none : src.length = 0 := by omega
    simp [blocksOf,none] at member
  | succ turns ih =>
    rw [writei_from] at written
    by_cases done : src.length = 0
    · simp [blocksOf,done] at member
    · rw [if_neg done] at written
      obtain ⟨⟨addr,v₂⟩,mapped,written⟩ := bind_ok written
      obtain ⟨v₃,logged,written⟩ := bind_ok written
      obtain ⟨works,rfl,positive,_⟩ := bmap_works mapped zero
      simp only [logging] at logged
      split at logged
      · cases logged
      · cases logged
        have pos := chunk_pos off done
        have short := chunk_le off src.length
        have put := Works.put off (src.take (chunk off src.length)) works (slotOf_mem_needs (off / BSIZE)) positive
        have rest : (src.drop (chunk off src.length)).length ≤ turns := by rw [List.length_drop]; omega
        have subset : span (off + chunk off src.length) (src.drop (chunk off src.length)).length ⊆ span off src.length := by
          rw [List.length_drop]
          exact span_rest off _
        -- the block is that of the first chunk or one of the rest
        by_cases first : bn = off / BSIZE
        · subst first
          obtain ⟨later,_⟩ := writei_from_works _ _ _ rest (put.marks zero) written
          exact ⟨v,v₂,_,_,_,zero,mapped,later.mono subset⟩
        · obtain ⟨va,vb,addr,at_,part,zero',found,later⟩ := ih _ _ rest (put.marks zero) written (by
            rw [List.length_drop]
            exact mem_rest_blocksOf member first)
          exact ⟨va,vb,addr,at_,part,zero',found,later.mono subset⟩

theorem writei_from_fills (turns off : Nat) (src : List UInt8) {off' : Nat} (enough : src.length ≤ turns)
    (zero : v.marks 0 = true) (written : v.writei_from sb e turns off src = .ok (off',v')) {r : Nat}
    (needed : r ∈ span off src.length) : v'.cell e r ≠ 0 := by
  obtain ⟨bn,member,inNeeds⟩ := mem_biUnion.mp needed
  obtain ⟨v₁,v₂,addr,at_,part,zero',mapped,later⟩ := writei_from_turns turns off src enough zero written member
  have filled : v₂.cell e r ≠ 0 := bmap_fills mapped zero' inNeeds
  rw [(later.cell r).1 filled]
  exact filled

theorem writei_from_logs (turns off : Nat) (src : List UInt8) {off' : Nat} (enough : src.length ≤ turns)
    (zero : v.marks 0 = true) (written : v.writei_from sb e turns off src = .ok (off',v')) {bn : Nat}
    (member : bn ∈ blocksOf off src.length) : v'.cell e (slotOf bn) ∈ v'.journal.lh := by
  obtain ⟨v₁,v₂,addr,at_,part,zero',mapped,later⟩ := writei_from_turns turns off src enough zero written member
  obtain ⟨_,rfl,positive,_⟩ := bmap_works mapped zero'
  rw [(later.cell _).1 positive]
  exact later.journal.lh ((mem_absorb _ _ _).mpr (.inr rfl))

theorem bmap_present {bn : Nat} (low : bn < MAXFILE) (there : ∀ r, r ∈ needs bn → v.cell e r ≠ 0) :
    v.bmap sb e bn = .ok (v.cell e (slotOf bn),v) := by
  unfold bmap
  by_cases direct : bn < NDIRECT
  · have slot : slotOf bn = bn := if_pos direct
    have held := there bn (by simp [needs,direct])
    rw [cell_direct (by omega)] at held
    rw [if_pos direct,if_neg held,slot,cell_direct (by omega)]
  · have slot : slotOf bn = NDIRECT + 1 + (bn - NDIRECT) := by
      rw [slotOf,if_neg direct]
      omega
    have indirect := there NDIRECT (by simp [needs,direct])
    rw [cell_direct (Nat.le_refl _)] at indirect
    have held := there (NDIRECT + 1 + (bn - NDIRECT)) (by
      rw [show NDIRECT + 1 + (bn - NDIRECT) = bn + 1 by omega]
      simp [needs,direct])
    rw [cell_entry _ indirect] at held
    have inBlock : bn - NDIRECT < NINDIRECT := by
      simp only [MAXFILE] at low
      omega
    rw [if_neg direct,if_pos inBlock,View.indirect,if_neg indirect]
    show (if v.entry (v.icache e).inum (bn - NDIRECT) = 0 then _ else _) = _
    rw [if_neg held,slot,cell_entry _ indirect]

theorem readi_from_present (turns off n : Nat) (enough : n ≤ turns) (inFile : off + n ≤ MAXFILE * BSIZE)
    (there : ∀ r, r ∈ span off n → v.cell e r ≠ 0) :
    v.readi_from sb e turns off n = .ok ((List.range n).map (fun t => v.bytes (v.icache e).inum (off + t)),v) := by
  induction turns generalizing off n with
  | zero =>
    obtain rfl : n = 0 := by omega
    rfl
  | succ turns ih =>
    rw [readi_from]
    by_cases done : n = 0
    · subst done
      rfl
    · have pos := chunk_pos off done
      have short := chunk_le off n
      rw [if_neg done,bmap_present (blocksOf_lt inFile (first_mem_blocksOf off done))
        (fun r needed => there r (span_first off done needed))]
      show (v.readi_from sb e turns _ _ >>= _) = _
      rw [ih _ _ (by omega) (by omega) (fun r needed => there r (span_rest off n needed))]
      show Except.ok _ = _
      rw [map_range_chunk off n]

def Writable (off n size : Nat) : Prop := off ≤ size ∧ off + n < 2 ^ 32 ∧ off + n ≤ MAXFILE * BSIZE

instance (off n size : Nat) : Decidable (Writable off n size) := inferInstanceAs (Decidable (_ ∧ _ ∧ _))

theorem writei_writes {off : Nat} {src : List UInt8} {r : Option Nat} (notDevice : (v.icache e).din.type ≠ T_DEV)
    (zero : v.marks 0 = true) (writable : Writable off src.length (v.icache e).din.size)
    (written : v.writei sb e src off = .ok (r,v')) :
    r = some src.length ∧ ∃ v₁, Works sb e (span off src.length) v v₁ ∧
      (∀ q, q ∈ span off src.length → v₁.cell e q ≠ 0) ∧
      (∀ bn, bn ∈ blocksOf off src.length → v₁.cell e (slotOf bn) ∈ v₁.journal.lh) ∧
      v₁.bytes = Function.update v.bytes (v.icache e).inum (overwrite (v.bytes (v.icache e).inum) off src) ∧
      v' = if src.length > 0 ∧ off + src.length > (v.icache e).din.size then (v₁.resize e (off + src.length)).update e else v₁ := by
  obtain ⟨inFile,noWrap,small⟩ := writable
  unfold writei at written
  rw [if_neg notDevice,if_neg (by omega),if_neg (by omega)] at written
  obtain ⟨⟨off',v₁⟩,loop,written⟩ := bind_ok written
  obtain ⟨works,rfl,bytes⟩ := writei_from_works _ _ _ (Nat.le_refl _) zero loop
  have fills := fun q => writei_from_fills _ _ _ (Nat.le_refl _) zero loop (r := q)
  have logs := fun bn (member : bn ∈ blocksOf off src.length) => writei_from_logs _ _ _ (Nat.le_refl _) zero loop member
  simp only [works.fixed.2.2] at written
  by_cases grows : src.length > 0 ∧ off + src.length > (v.icache e).din.size
  · rw [if_pos grows] at written
    unfold logging at written
    split at written
    · cases written
    · cases written
      exact ⟨rfl,v₁,works,fills,logs,bytes,by rw [if_pos grows]⟩
  · rw [if_neg grows] at written
    cases written
    exact ⟨rfl,_,works,fills,logs,bytes,by rw [if_neg grows]⟩

theorem writei_total {off : Nat} {src : List UInt8} (notDevice : (v.icache e).din.type ≠ T_DEV) (zero : v.marks 0 = true)
    (writable : Writable off src.length (v.icache e).din.size) (enough : v.lacks e (span off src.length) ≤ v.clear sb)
    (inTrans : 1 ≤ v.journal.outstanding) : ∃ r, v.writei sb e src off = .ok r := by
  obtain ⟨inFile,noWrap,small⟩ := writable
  obtain ⟨⟨off',v₁⟩,loop⟩ := writei_from_total src.length off src zero enough inTrans small (Finset.Subset.refl _)
  obtain ⟨works,rfl,_⟩ := writei_from_works _ _ _ (Nat.le_refl _) zero loop
  unfold writei
  rw [if_neg notDevice,if_neg (by omega),if_neg (by omega),loop]
  show ∃ r, (if src.length > 0 ∧ off + src.length > (v₁.icache e).din.size then _ else _) = Except.ok r
  split
  · exact ⟨_,logging_ok (by rw [works.journal.outstanding]; exact inTrans)⟩
  · exact ⟨_,rfl⟩

structure Wrote (e : Entry) (off : Nat) (src : List UInt8) (v v' : View) : Prop where
  others : ∀ e', e' ≠ e → v'.icache e' = v.icache e'
  inode : v'.icache e = { v.icache e with
    din := { (v.icache e).din with addrs := (v'.icache e).din.addrs, size := max (v.icache e).din.size (off + src.length) } }
  cells : ∀ r, v'.cell e r ≠ 0 ↔ v.cell e r ≠ 0 ∨ r ∈ span off src.length
  logged : ∀ bn, bn ∈ blocksOf off src.length → v'.cell e (slotOf bn) ∈ v'.journal.lh
  kept : ∀ r, v.cell e r ≠ 0 → v'.cell e r = v.cell e r
  bytes : v'.bytes = Function.update v.bytes (v.icache e).inum (overwrite (v.bytes (v.icache e).inum) off src)
  disk : ∀ j, j ≠ (v.icache e).inum → v'.disk j = v.disk j
  entry : ∀ j, j ≠ (v.icache e).inum → v'.entry j = v.entry j
  devsw : v'.devsw = v.devsw

theorem Wrote.din {off : Nat} {src : List UInt8} (wrote : Wrote e off src v v') {j : Nat}
    (other : j ≠ (v.icache e).inum) : v'.din j = v.din j := by
  refine current_congr (fun e' => ?_) (fun e' holds => ?_) (wrote.disk j other)
  · by_cases same : e' = e
    · rw [same,Holds,Holds,wrote.inode]
    · rw [Holds,Holds,wrote.others e' same]
  · rw [wrote.others]
    rintro rfl
    exact other holds.2.1.symm

theorem writei_wrote {off : Nat} {src : List UInt8} {r : Option Nat} (notDevice : (v.icache e).din.type ≠ T_DEV)
    (zero : v.marks 0 = true) (writable : Writable off src.length (v.icache e).din.size)
    (written : v.writei sb e src off = .ok (r,v')) : r = some src.length ∧ Wrote e off src v v' := by
  obtain ⟨all,v₁,works,filled,logged,bytes,rfl⟩ := writei_writes notDevice zero writable written
  refine ⟨all,?_⟩
  have inode := works.inode
  obtain ⟨disk,devsw,rest⟩ := works.fields
  have cells (r : Nat) : v₁.cell e r ≠ 0 ↔ v.cell e r ≠ 0 ∨ r ∈ span off src.length := by
    refine ⟨(works.cell r).2,?_⟩
    rintro (held | needed)
    · rw [(works.cell r).1 held]
      exact held
    · exact filled r needed
  by_cases grows : src.length > 0 ∧ off + src.length > (v.icache e).din.size
  · rw [if_pos grows]
    have resized : (v₁.resize e (off + src.length)).icache e =
        { v₁.icache e with din := { (v₁.icache e).din with size := off + src.length } } := Function.update_self _ _ _
    have same (r : Nat) : ((v₁.resize e (off + src.length)).update e).cell e r = v₁.cell e r := by
      show slotIn (v₁.entry ((v₁.resize e (off + src.length)).icache e).inum) ((v₁.resize e (off + src.length)).icache e).din r = _
      rw [resized]
      rfl
    refine ⟨fun e' other => ?_,?_,fun r => by rw [same,cells],fun bn member => ?_,fun r held => by rw [same,(works.cell r).1 held],bytes,
      fun j other => ?_,fun j other => (rest j other).1,devsw⟩
    · exact (Function.update_of_ne other _ _).trans (works.others other)
    · have whole : ((v₁.resize e (off + src.length)).update e).icache e = _ := resized
      rw [whole,inode,Nat.max_eq_right (by omega)]
    · rw [same]
      exact (mem_absorb _ _ _).mpr (.inl (logged bn member))
    · show Function.update v₁.disk ((v₁.resize e (off + src.length)).icache e).inum _ j = _
      rw [resized,Function.update_of_ne (by rw [inode]; exact other),disk]
  · rw [if_neg grows]
    refine ⟨fun e' other => works.others other,?_,cells,logged,fun r => (works.cell r).1,bytes,fun j _ => by rw [disk],
      fun j other => (rest j other).1,devsw⟩
    obtain ⟨inFile,_⟩ := writable
    rw [Nat.max_eq_left (by omega)]
    exact inode

end

end View

end Osce.Fs
