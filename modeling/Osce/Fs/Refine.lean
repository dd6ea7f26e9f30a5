import Osce.Fs.View

/-!
The programs that reach the content of an inode, over the view: `bmap`, `readi` and
`writei` do to the state what these functions do to the view it shows, and stop where
they stop.
-/
namespace Osce.Fs
open Osce.Lib Osce.Layout Osce.Log Prog List
open Bytes (word setWord word_zero word_setWord_same word_setWord_ne)

namespace View

def indirect (sb : Superblock) (e : Entry) (v : View) : Except Stop View :=
  if (v.icache e).din.addrs NDIRECT = 0 then do
    let b ← pick sb v.marks v.journal.outstanding
    .ok (v.attach sb e NDIRECT b)
  else .ok v

def bmap (sb : Superblock) (e : Entry) (bn : Nat) (v : View) : Except Stop (Nat × View) :=
  if bn < NDIRECT then
    if (v.icache e).din.addrs bn = 0 then do
      let b ← pick sb v.marks v.journal.outstanding
      .ok (b,v.attach sb e bn b)
    else .ok ((v.icache e).din.addrs bn,v)
  else if bn - NDIRECT < NINDIRECT then do
    let v ← v.indirect sb e
    if v.entry (v.icache e).inum (bn - NDIRECT) = 0 then do
      let b ← pick sb v.marks v.journal.outstanding
      .ok (b,v.enter sb e (bn - NDIRECT) b)
    else .ok (v.entry (v.icache e).inum (bn - NDIRECT),v)
  else .error (.panic "bmap: out of range")

def readi_from (sb : Superblock) (e : Entry) : Nat → Nat → Nat → View → Except Stop (List UInt8 × View)
  | 0, _, _, v => .ok ([],v)
  | turns + 1, off, n, v =>
    if n = 0 then .ok ([],v)
    else do
      let (_,v) ← v.bmap sb e (off / BSIZE)
      let (rest,v') ← readi_from sb e turns (off + chunk off n) (n - chunk off n) v
      .ok ((List.range (chunk off n)).map (fun t => v.bytes (v.icache e).inum (off + t)) ++ rest,v')

def readi (sb : Superblock) (e : Entry) (off n : Nat) (v : View) : Except Stop (Option (List UInt8) × View) :=
  if (v.icache e).din.type = T_DEV then .ok ((device v.devsw (v.icache e).din.major).bind fun d => d.read n,v)
  else if off > (v.icache e).din.size ∨ (off + n) % 2 ^ 32 < off then .ok (none,v)
  else do
    let n := if off + n > (v.icache e).din.size then (v.icache e).din.size - off else n
    let (bytes,v) ← v.readi_from sb e n off n
    .ok (some bytes,v)

def writei_from (sb : Superblock) (e : Entry) : Nat → Nat → List UInt8 → View → Except Stop (Nat × View)
  | 0, off, _, v => .ok (off,v)
  | turns + 1, off, src, v =>
    if src.length = 0 then .ok (off,v)
    else do
      let (addr,v) ← v.bmap sb e (off / BSIZE)
      let v ← logging v.journal.outstanding (.ok (v.put e addr off (src.take (chunk off src.length))))
      writei_from sb e turns (off + chunk off src.length) (src.drop (chunk off src.length)) v

def resize (v : View) (e : Entry) (size : Nat) : View :=
  v.setInode e { v.icache e with din := { (v.icache e).din with size := size } }

def writei (sb : Superblock) (e : Entry) (src : List UInt8) (off : Nat) (v : View) :
    Except Stop (Option Nat × View) :=
  if (v.icache e).din.type = T_DEV then .ok ((device v.devsw (v.icache e).din.major).bind fun d => d.write src,v)
  else if off > (v.icache e).din.size ∨ (off + src.length) % 2 ^ 32 < off then .ok (none,v)
  else if (off + src.length) % 2 ^ 32 > MAXFILE * BSIZE then .ok (none,v)
  else do
    let (off,v) ← v.writei_from sb e src.length off src
    if src.length > 0 ∧ off > (v.icache e).din.size then
      logging v.journal.outstanding
        (.ok (some src.length,(v.resize e off).update e))
    else .ok (some src.length,v)

end View

theorem chunk_inBlock (off n : Nat) : off % BSIZE + chunk off n ≤ BSIZE := by
  have := Nat.mod_lt off (show 0 < BSIZE by decide)
  simp only [chunk]
  omega

theorem chunk_bytes {off n t : Nat} (inside : t < chunk off n) :
    (off + t) / BSIZE = off / BSIZE ∧ (off + t) % BSIZE = off % BSIZE + t := by
  have := chunk_inBlock off n
  simp only [BSIZE] at *
  omega

def blocksOf (off n : Nat) : Finset Nat := if n = 0 then ∅ else Finset.Icc (off / BSIZE) ((off + n - 1) / BSIZE)

theorem chunk_le (off n : Nat) : chunk off n ≤ n := Nat.min_le_left _ _

theorem chunk_pos (off : Nat) {n : Nat} (some : n ≠ 0) : 0 < chunk off n := by
  have := Nat.mod_lt off (show 0 < BSIZE by decide)
  simp only [chunk]
  omega

theorem mem_blocksOf {off n bn : Nat} : bn ∈ blocksOf off n ↔ n ≠ 0 ∧ off / BSIZE ≤ bn ∧ bn ≤ (off + n - 1) / BSIZE := by
  by_cases none : n = 0
  · simp [blocksOf,none]
  · rw [blocksOf,if_neg none,Finset.mem_Icc,and_iff_right none]

theorem first_mem_blocksOf (off : Nat) {n : Nat} (some : n ≠ 0) : off / BSIZE ∈ blocksOf off n :=
  mem_blocksOf.mpr ⟨some,Nat.le_refl _,Nat.div_le_div_right (by omega)⟩

theorem rest_subset_blocksOf (off n : Nat) : blocksOf (off + chunk off n) (n - chunk off n) ⊆ blocksOf off n := by
  intro bn member
  have := chunk_le off n
  rw [mem_blocksOf] at *
  simp only [BSIZE] at *
  omega

theorem map_range_chunk (off n : Nat) (f : Nat → UInt8) :
    (range (chunk off n)).map (fun t => f (off + t)) ++
        (range (n - chunk off n)).map (fun t => f (off + chunk off n + t)) =
      (range n).map fun t => f (off + t) := by
  have short := chunk_le off n
  have split : range n = range (chunk off n) ++ (range (n - chunk off n)).map (chunk off n + ·) := by
    rw [← range_add]
    congr 1
    omega
  rw [split,map_append,map_map]
  congr 1
  refine map_congr_left fun t _ => ?_
  rw [Function.comp_apply,Nat.add_assoc]

theorem overwrite_nil (bytes : Nat → UInt8) (off : Nat) : overwrite bytes off [] = bytes := by
  funext j
  rw [overwrite,if_neg (by simp)]

theorem overwrite_overwrite (bytes : Nat → UInt8) (off m : Nat) (src : List UInt8) (low : m ≤ src.length) :
    overwrite (overwrite bytes off (src.take m)) (off + m) (src.drop m) = overwrite bytes off src := by
  funext j
  simp only [overwrite,length_take,length_drop]
  by_cases first : off ≤ j ∧ j < off + m
  · rw [if_neg (by omega),if_pos (by omega),if_pos (by omega)]
    simp only [getD_eq_getElem?_getD,getElem?_take,if_pos (show j - off < m by omega)]
  · by_cases second : off + m ≤ j ∧ j < off + src.length
    · rw [if_pos (by omega),if_pos (by omega)]
      simp only [getD_eq_getElem?_getD,getElem?_drop]
      rw [show m + (j - (off + m)) = j - off by omega]
    · rw [if_neg (by omega),if_neg (by omega),if_neg (by omega)]

theorem bind_ok {α β : Type} {x : Except Stop α} {f : α → Except Stop β} {b : β} (done : (x >>= f) = .ok b) :
    ∃ a, x = .ok a ∧ f a = .ok b := by
  cases x with
  | error s => cases done
  | ok a => exact ⟨a,rfl,done⟩

namespace View

def cell (v : View) (e : Entry) (r : Nat) : Nat := slotIn (v.entry (v.icache e).inum) (v.icache e).din r

theorem cell_direct {v : View} {e : Entry} {r : Nat} (low : r ≤ NDIRECT) : v.cell e r = (v.icache e).din.addrs r := if_pos low

theorem cell_entry {v : View} {e : Entry} (idx : Nat) (some : (v.icache e).din.addrs NDIRECT ≠ 0) :
    v.cell e (NDIRECT + 1 + idx) = v.entry (v.icache e).inum idx := by
  rw [cell,slotIn,if_neg (by omega),if_neg some,show NDIRECT + 1 + idx - NDIRECT - 1 = idx by omega]

def needs (bn : Nat) : Finset Nat := if bn < NDIRECT then {bn} else {bn + 1,NDIRECT}

/-- Blocks are allocated for slots in `S`, and blocks of the content written. -/
inductive Works (sb : Superblock) (e : Entry) (S : Finset Nat) (v : View) : View → Prop where
  | refl : Works sb e S v v
  | attach {v' : View} {r b : Nat} (before : Works sb e S v v') (member : r ∈ S) (low : r ≤ NDIRECT)
      (empty : (v'.icache e).din.addrs r = 0) (clear : v'.marks b = false) (inside : b < sb.size) (positive : b ≠ 0) :
      Works sb e S v (v'.attach sb e r b)
  | enter {v' : View} {idx b : Nat} (before : Works sb e S v v') (member : NDIRECT + 1 + idx ∈ S) (known : NDIRECT ∈ S)
      (some : (v'.icache e).din.addrs NDIRECT ≠ 0) (empty : v'.entry (v'.icache e).inum idx = 0)
      (clear : v'.marks b = false) (inside : b < sb.size) (positive : b ≠ 0) : Works sb e S v (v'.enter sb e idx b)
  | put {v' : View} (off : Nat) (src : List UInt8) (before : Works sb e S v v') (member : slotOf (off / BSIZE) ∈ S)
      (some : v'.cell e (slotOf (off / BSIZE)) ≠ 0) : Works sb e S v (v'.put e (v'.cell e (slotOf (off / BSIZE))) off src)

section
variable {sb : Superblock} {e : Entry} {S : Finset Nat} {v v' v'' : View}

theorem Works.trans (first : Works sb e S v v') (second : Works sb e S v' v'') : Works sb e S v v'' := by
  induction second with
  | refl => exact first
  | attach _ member low empty clear inside positive ih => exact .attach ih member low empty clear inside positive
  | enter _ member known some empty clear inside positive ih => exact .enter ih member known some empty clear inside positive
  | put off src _ member some ih => exact .put off src ih member some

theorem Works.mono {T : Finset Nat} (works : Works sb e S v v') (more : S ⊆ T) : Works sb e T v v' := by
  induction works with
  | refl => exact .refl
  | attach _ member low empty clear inside positive ih => exact .attach ih (more member) low empty clear inside positive
  | enter _ member known some empty clear inside positive ih =>
    exact .enter ih (more member) (more known) some empty clear inside positive
  | put off src _ member some ih => exact .put off src ih (more member) some

theorem attach_inode (r b : Nat) :
    (v.attach sb e r b).icache e = { v.icache e with din := (v.icache e).din.setAddr r b } := Function.update_self _ _ _

theorem Works.others (works : Works sb e S v v') {e' : Entry} (different : e' ≠ e) : v'.icache e' = v.icache e' := by
  induction works with
  | refl => rfl
  | attach _ _ _ _ _ _ _ ih => exact (Function.update_of_ne different _ _).trans ih
  | enter _ _ _ _ _ _ _ _ ih => exact ih
  | put _ _ _ _ _ ih => exact ih

theorem Works.inode (works : Works sb e S v v') :
    v'.icache e = { v.icache e with din := { (v.icache e).din with addrs := (v'.icache e).din.addrs } } := by
  induction works with
  | refl => rfl
  | attach _ _ _ _ _ _ _ ih =>
    rw [attach_inode,ih]
    rfl
  | enter _ _ _ _ _ _ _ _ ih => exact ih
  | put _ _ _ _ _ ih => exact ih

theorem Works.fixed (works : Works sb e S v v') :
    (v'.icache e).inum = (v.icache e).inum ∧ (v'.icache e).din.type = (v.icache e).din.type ∧
      (v'.icache e).din.size = (v.icache e).din.size := by
  rw [works.inode]
  exact ⟨rfl,rfl,rfl⟩

theorem Works.holds (works : Works sb e S v v') {i : Nat} (holds : Holds v.icache e i) : Holds v'.icache e i := by
  rw [Holds,works.inode]
  exact holds

theorem Works.marks (works : Works sb e S v v') {b : Nat} (isMarked : v.marks b = true) : v'.marks b = true := by
  induction works with
  | refl => exact isMarked
  | attach _ _ _ _ _ _ _ ih => simp [View.attach,View.alloc,View.setInode,Function.update_apply,ih]
  | enter _ _ _ _ _ _ _ _ ih => simp [View.enter,View.alloc,Function.update_apply,ih]
  | put _ _ _ _ _ ih => exact ih

theorem pick_free {b : Nat} (picked : pick sb v.marks v.journal.outstanding = .ok b) (zero : v.marks 0 = true) :
    v.marks b = false ∧ b < sb.size ∧ b ≠ 0 := by
  obtain ⟨inside,clear,_⟩ := pick_ok picked
  refine ⟨clear,inside,?_⟩
  rintro rfl
  rw [zero] at clear
  cases clear

theorem cell_attach {r b q : Nat} (low : r ≤ NDIRECT) (empty : (v.icache e).din.addrs r = 0) :
    (v.attach sb e r b).cell e q = if q = r then b else v.cell e q := by
  have entries : (v.attach sb e r b).entry (v.icache e).inum =
      if r = NDIRECT then fun _ => 0 else v.entry (v.icache e).inum := by
    simp only [View.attach]
    split
    · exact Function.update_self _ _ _
    · rfl
  rw [cell,attach_inode]
  simp only
  rw [entries]
  exact slotIn_setAddr low empty

theorem cell_enter {idx b q : Nat} (some : (v.icache e).din.addrs NDIRECT ≠ 0) :
    (v.enter sb e idx b).cell e q = if q = NDIRECT + 1 + idx then b else v.cell e q := by
  have entries : (v.enter sb e idx b).entry (v.icache e).inum = Function.update (v.entry (v.icache e).inum) idx b :=
    Function.update_self _ _ _
  rw [cell,show (v.enter sb e idx b).icache = v.icache from rfl,entries]
  exact slotIn_entry some

theorem indirect_works (made : v.indirect sb e = .ok v') (zero : v.marks 0 = true) (known : NDIRECT ∈ S) :
    Works sb e S v v' ∧ (v'.icache e).din.addrs NDIRECT ≠ 0 ∧ v'.bytes = v.bytes := by
  unfold indirect at made
  by_cases empty : (v.icache e).din.addrs NDIRECT = 0
  · rw [if_pos empty] at made
    obtain ⟨b,picked,same⟩ := bind_ok made
    cases same
    obtain ⟨clear,inside,positive⟩ := pick_free picked zero
    refine ⟨.attach .refl known (Nat.le_refl _) empty clear inside positive,?_,rfl⟩
    rw [attach_inode]
    simpa [Dinode.setAddr] using positive
  · rw [if_neg empty] at made
    cases made
    exact ⟨.refl,empty,rfl⟩

theorem bmap_works {bn addr : Nat} (mapped : v.bmap sb e bn = .ok (addr,v')) (zero : v.marks 0 = true) :
    Works sb e (needs bn) v v' ∧ addr = v'.cell e (slotOf bn) ∧ addr ≠ 0 ∧ v'.bytes = v.bytes := by
  unfold bmap at mapped
  by_cases direct : bn < NDIRECT
  · have slot : slotOf bn = bn := if_pos direct
    have member : bn ∈ needs bn := by simp [needs,direct]
    rw [if_pos direct] at mapped
    by_cases empty : (v.icache e).din.addrs bn = 0
    · rw [if_pos empty] at mapped
      obtain ⟨b,picked,same⟩ := bind_ok mapped
      cases same
      obtain ⟨clear,inside,positive⟩ := pick_free picked zero
      exact ⟨.attach .refl member (by omega) empty clear inside positive,by rw [slot,cell_attach (by omega) empty,if_pos rfl],
        positive,rfl⟩
    · rw [if_neg empty] at mapped
      cases mapped
      exact ⟨.refl,by rw [slot,cell_direct (by omega)],empty,rfl⟩
  · rw [if_neg direct] at mapped
    by_cases inBlock : bn - NDIRECT < NINDIRECT
    · rw [if_pos inBlock] at mapped
      have slot : slotOf bn = NDIRECT + 1 + (bn - NDIRECT) := by
        rw [slotOf,if_neg direct]
        omega
      have members : NDIRECT + 1 + (bn - NDIRECT) ∈ needs bn ∧ NDIRECT ∈ needs bn := by
        rw [← slot,slotOf,if_neg direct]
        simp [needs,direct]
      obtain ⟨v₁,made,mapped⟩ := bind_ok mapped
      obtain ⟨works,some,same⟩ := indirect_works made zero members.2
      by_cases empty : v₁.entry (v₁.icache e).inum (bn - NDIRECT) = 0
      · rw [if_pos empty] at mapped
        obtain ⟨b,picked,made⟩ := bind_ok mapped
        cases made
        obtain ⟨clear,inside,positive⟩ := pick_free picked (works.marks zero)
        exact ⟨.enter works members.1 members.2 some empty clear inside positive,by rw [slot,cell_enter some,if_pos rfl],
          positive,same⟩
      · rw [if_neg empty] at mapped
        cases mapped
        refine ⟨works,?_,empty,same⟩
        rw [slot,cell_entry _ some]
    · rw [if_neg inBlock] at mapped
      cases mapped

def span (off n : Nat) : Finset Nat := (blocksOf off n).biUnion needs

theorem span_first (off : Nat) {n : Nat} (some : n ≠ 0) : needs (off / BSIZE) ⊆ span off n :=
  Finset.subset_biUnion_of_mem needs (first_mem_blocksOf off some)

theorem span_rest (off n : Nat) : span (off + chunk off n) (n - chunk off n) ⊆ span off n :=
  Finset.biUnion_subset_biUnion_of_subset_left needs (rest_subset_blocksOf off n)

theorem mem_needs {bn r : Nat} : r ∈ needs bn ↔ r = slotOf bn ∨ NDIRECT ≤ bn ∧ r = NDIRECT := by
  rw [slotOf,needs]
  split
  · rw [Finset.mem_singleton]
    omega
  · rw [Finset.mem_insert,Finset.mem_singleton]
    omega

theorem slotOf_mem_needs (bn : Nat) : slotOf bn ∈ needs bn := mem_needs.mpr (.inl rfl)

theorem writei_from_works (turns off : Nat) (src : List UInt8) {off' : Nat} (enough : src.length ≤ turns)
    (zero : v.marks 0 = true) (written : v.writei_from sb e turns off src = .ok (off',v')) :
    Works sb e (span off src.length) v v' ∧ off' = off + src.length ∧
      v'.bytes = Function.update v.bytes (v.icache e).inum (overwrite (v.bytes (v.icache e).inum) off src) := by
  induction turns generalizing off src v with
  | zero =>
    have none : src.length = 0 := by omega
    cases written
    exact ⟨.refl,by omega,by rw [length_eq_zero_iff.mp none,overwrite_nil,Function.update_eq_self]⟩
  | succ turns ih =>
    rw [writei_from] at written
    by_cases done : src.length = 0
    · rw [if_pos done] at written
      cases written
      exact ⟨.refl,by omega,by rw [length_eq_zero_iff.mp done,overwrite_nil,Function.update_eq_self]⟩
    · rw [if_neg done] at written
      obtain ⟨⟨addr,v₁⟩,mapped,written⟩ := bind_ok written
      obtain ⟨v₂,logged,written⟩ := bind_ok written
      obtain ⟨works,rfl,positive,same⟩ := bmap_works mapped zero
      simp only [logging] at logged
      split at logged
      · cases logged
      · cases logged
        have := chunk_pos off done
        have short := chunk_le off src.length
        have put := Works.put off (src.take (chunk off src.length)) works (slotOf_mem_needs (off / BSIZE)) positive
        obtain ⟨works',rfl,bytes⟩ := ih (off + chunk off src.length) (src.drop (chunk off src.length))
          (by rw [length_drop]; omega) (put.marks zero) written
        rw [length_drop] at works' ⊢
        refine ⟨(put.mono (span_first off done)).trans (works'.mono (span_rest off _)),by omega,?_⟩
        rw [bytes]
        simp only [View.put,same,works.fixed.1,Function.update_self,Function.update_idem]
        rw [overwrite_overwrite _ _ _ _ short]

end

end View

/-- The run ends as the view says: in a state that shows the new view, or for the
    same reason. -/
def Refines {α : Type} (sb : Superblock) (x : Except Stop (α × Kernel)) (y : Except Stop (α × View)) : Prop :=
  match y with
  | .ok (a,v) => ∃ k, x = .ok (a,k) ∧ Shows sb k v
  | .error e => x = .error e

section
variable {α β : Type} {sb : Superblock} {k : Kernel} {v : View}

theorem Refines.bind {p : FsProg α} {f : α → FsProg β} {y : Except Stop (α × View)} {g : α × View → Except Stop (β × View)}
    (first : Refines sb (exec Kernel.ample p k) y)
    (rest : ∀ a k' v', y = .ok (a,v') → Shows sb k' v' → Refines sb (exec Kernel.ample (f a) k') (g (a,v'))) :
    Refines sb (exec Kernel.ample (p >>= f) k) (y >>= g) := by
  rw [exec_bind]
  cases y with
  | error e =>
    rw [show exec Kernel.ample p k = .error e from first]
    rfl
  | ok r =>
    obtain ⟨k',run,shows'⟩ := first
    rw [run]
    exact rest r.1 k' r.2 rfl shows'

theorem logging_bind (outstanding : Int) (a : α) (g : α → Except Stop β) :
    logging outstanding (.ok a) >>= g = logging outstanding (g a) := by
  unfold logging
  split <;> rfl

theorem logging_ok {x : Except Stop α} {outstanding : Int} (inside : 1 ≤ outstanding) : logging outstanding x = x :=
  if_neg (by omega)

theorem Shows.data {b : Nat} (shows_ : Shows sb k v) (picked : pick sb v.marks v.journal.outstanding = .ok b) : dataStart sb ≤ b := by
  obtain ⟨below,clear,_⟩ := pick_ok picked
  rw [shows_.marks b below] at clear
  exact shows_.sound.data clear below

section
variable {e : Entry} {i : Nat} (shows_ : Shows sb k v) (holds : Holds v.icache e i)
  (typed : (v.icache e).din.type ≠ 0)
include shows_ holds typed

theorem refines_attach {r : Nat} (low : r ≤ NDIRECT) (empty : (v.icache e).din.addrs r = 0) :
    Refines sb
      (exec Kernel.ample (do
        let addr ← balloc
        modify e (Dinode.setAddr · r addr)
        pure addr) k)
      (do
        let b ← pick sb v.marks v.journal.outstanding
        .ok (b,v.attach sb e r b)) := by
  rw [exec_bind,exec_balloc shows_.quiet shows_.sound.super,shows_.picks]
  cases picked : pick sb v.marks v.journal.outstanding with
  | error s => rfl
  | ok b =>
    obtain ⟨below,clear,_⟩ := pick_ok picked
    exact ⟨k.attach sb e r b,rfl,shows_.attach holds typed clear below low empty⟩

/-- An entry of the indirect block, which is allocated if there is none. -/
theorem refines_entry {idx : Nat} (inBlock : idx < NINDIRECT) (some : (v.icache e).din.addrs NDIRECT ≠ 0) :
    Refines sb
      (exec Kernel.ample (do
        let bp ← bread ((v.icache e).din.addrs NDIRECT)
        if word bp idx = 0 then do
          let entry ← balloc
          store ((v.icache e).din.addrs NDIRECT) (setWord bp idx entry)
          log_write ((v.icache e).din.addrs NDIRECT)
          brelse ((v.icache e).din.addrs NDIRECT)
          pure entry
        else do
          brelse ((v.icache e).din.addrs NDIRECT)
          pure (word bp idx)) k)
      (if v.entry (v.icache e).inum idx = 0 then do
        let b ← pick sb v.marks v.journal.outstanding
        .ok (b,v.enter sb e idx b)
      else .ok (v.entry (v.icache e).inum idx,v)) := by
  have sound := shows_.sound
  have inode : v.icache e = k.icache e := by rw [shows_.icache]
  have holdsK : Holds k.icache e i := by rw [← shows_.icache]; exact holds
  have low := sound.inside e holdsK.1
  rw [holdsK.2.1] at low
  have here : din k i = (k.icache e).din := current_cached sound.unique holdsK
  have block := sound.indirect holdsK (by rw [← inode]; exact typed) (by rw [← inode]; exact some)
  rw [← inode] at block
  -- what the entry is in the view is what the block says
  have entry : word (k.blocks ((v.icache e).din.addrs NDIRECT)) idx = v.entry (v.icache e).inum idx := by
    have same := shows_.slots i low (by rw [here,← inode]; exact typed) (NDIRECT + 1 + idx)
    rw [View.slot,shows_.din low,here,← inode,slotIn,slot_entry (by omega) some,if_neg (by omega),if_neg some,
      show NDIRECT + 1 + idx - NDIRECT - 1 = idx by omega] at same
    rw [holds.2.1,same]
  generalize indirect : (v.icache e).din.addrs NDIRECT = a at *
  have idle := shows_.idle a
  have busy : (k.setBusy a true).busy a = true := Function.update_self _ _ _
  rw [exec_bread idle,entry]
  by_cases empty : v.entry (v.icache e).inum idx = 0
  · rw [if_pos empty,if_pos empty]
    have quiet : (k.setBusy a true).Quiet sb := by
      intro s isBusy
      by_cases same : s = a
      · rw [same]
        exact ⟨block.1,block.2.2⟩
      · rw [show (k.setBusy a true).busy s = k.busy s from Function.update_of_ne same _ _,shows_.idle s] at isBusy
        cases isBusy
    rw [exec_bind,exec_balloc quiet sound.super]
    rw [show pick sb (marked sb (k.setBusy a true).blocks) (k.setBusy a true).journal.outstanding =
      pick sb v.marks v.journal.outstanding from shows_.picks]
    cases picked : pick sb v.marks v.journal.outstanding with
    | error s => rfl
    | ok b =>
      obtain ⟨below,clear,_,inTrans⟩ := pick_ok picked
      have finish := @exec_finish _ (k.alloc sb b) a idle (setWord (k.blocks a) idx b) (pure b)
      rw [logging_ok (by rw [shows_.journal] at inTrans; exact inTrans)] at finish
      refine ⟨k.enter sb a idx b,finish,?_⟩
      have shown := shows_.enter holds typed clear below inBlock (by rw [indirect]; exact some) (by rw [← holds.2.1]; exact empty)
      rw [← inode,indirect] at shown
      exact shown
  · rw [if_neg empty,if_neg empty,exec_brelse busy,setBusy_setBusy idle]
    exact ⟨k,rfl,shows_⟩

theorem refines_bmap (bn : Nat) :
    Refines sb (exec Kernel.ample (bmap e bn) k) (v.bmap sb e bn) := by
  have inode : k.icache e = v.icache e := by rw [shows_.icache]
  rw [bmap,exec_inode,inode,View.bmap]
  by_cases direct : bn < NDIRECT
  · rw [if_pos direct,if_pos direct]
    by_cases empty : (v.icache e).din.addrs bn = 0
    · rw [if_pos empty,if_pos empty]
      exact refines_attach shows_ holds typed (by omega) empty
    · rw [if_neg empty,if_neg empty]
      exact ⟨k,rfl,shows_⟩
  · rw [if_neg direct,if_neg direct]
    by_cases inBlock : bn - NDIRECT < NINDIRECT
    · rw [if_pos inBlock,if_pos inBlock,View.indirect]
      by_cases empty : (v.icache e).din.addrs NDIRECT = 0
      · rw [if_pos empty,if_pos empty]
        rw [exec_bind,exec_balloc shows_.quiet shows_.sound.super,shows_.picks]
        cases picked : pick sb v.marks v.journal.outstanding with
        | error s => rfl
        | ok b =>
          obtain ⟨below,clear,_⟩ := pick_ok picked
          have shows' := shows_.attach holds typed clear below (Nat.le_refl _) empty
          have attached : (v.attach sb e NDIRECT b).icache e =
              { v.icache e with din := (v.icache e).din.setAddr NDIRECT b } := Function.update_self _ _ _
          have holds' : Holds (v.attach sb e NDIRECT b).icache e i := by simpa [Holds,attached] using holds
          have pointer : ((v.attach sb e NDIRECT b).icache e).din.addrs NDIRECT = b := by simp [attached,Dinode.setAddr]
          have := three_lt_dataStart sb
          have := shows_.data picked
          have second := refines_entry shows' holds' (by rw [attached]; exact typed) inBlock (by rw [pointer]; omega)
          rw [pointer] at second
          exact second
      · rw [if_neg empty,if_neg empty]
        exact refines_entry shows_ holds typed inBlock empty
    · rw [if_neg inBlock,if_neg inBlock]
      rfl

end

theorem Shows.zero (shows_ : Shows sb k v) : v.marks 0 = true := by
  have := three_lt_dataStart sb
  have := shows_.sound.layout
  rw [shows_.marks 0 (by omega)]
  exact shows_.sound.reserved 0 (by omega) (by omega)

theorem Shows.cell {e : Entry} {i : Nat} (shows_ : Shows sb k v) (holds : Holds v.icache e i) (r : Nat) :
    v.cell e r = v.slot i r := by
  have unique : Unique v.icache := by rw [shows_.icache]; exact shows_.sound.unique
  rw [View.cell,View.slot,View.din,current_cached unique holds,holds.2.1]

section
variable {e : Entry} {i : Nat}

theorem refines_readi_from (turns off n : Nat) (shows_ : Shows sb k v) (holds : Holds v.icache e i)
    (typed : (v.icache e).din.type ≠ 0) :
    Refines sb (exec Kernel.ample (readi_from e turns off n) k) (v.readi_from sb e turns off n) := by
  induction turns generalizing off n k v with
  | zero => exact ⟨k,rfl,shows_⟩
  | succ turns ih =>
    rw [readi_from,View.readi_from]
    by_cases done : n = 0
    · rw [if_pos done,if_pos done]
      exact ⟨k,rfl,shows_⟩
    · rw [if_neg done,if_neg done]
      refine (refines_bmap shows_ holds typed _).bind fun addr k₁ v₁ mapped shows₁ => ?_
      obtain ⟨works,place,positive,_⟩ := View.bmap_works mapped shows_.zero
      have holds₁ := works.holds holds
      have typed₁ : (v₁.icache e).din.type ≠ 0 := by rw [works.fixed.2.1]; exact typed
      rw [exec_read (shows₁.idle addr)]
      refine (ih _ _ shows₁ holds₁ typed₁).bind fun rest k₂ v₂ read shows₂ => ⟨k₂,?_,shows₂⟩
      -- the bytes of the block are those of the view
      have low := shows₁.sound.inside e (by rw [← shows₁.icache]; exact holds₁.1)
      rw [← shows₁.icache,holds₁.2.1] at low
      have here : din k₁ i = (v₁.icache e).din := by
        rw [shows₁.icache] at holds₁ ⊢
        exact current_cached shows₁.sound.unique holds₁
      have bytes : (k₁.blocks addr).read (off % BSIZE) (chunk off n) =
          (range (chunk off n)).map fun t => v₁.bytes (v₁.icache e).inum (off + t) := by
        refine map_congr_left fun t member => ?_
        obtain ⟨block,offset⟩ := chunk_bytes (mem_range.mp member)
        have slot : blockOf k₁.blocks (din k₁ i) (off / BSIZE) = addr := by
          rw [place,shows₁.cell holds₁,shows₁.slots i low (by rw [here]; exact typed₁)]
          rfl
        rw [holds₁.2.1,shows₁.bytes i low (by rw [here]; exact typed₁),byteAt,block,slot,if_neg positive,offset]
      rw [bytes]
      rfl

theorem refines_readi (off n : Nat) (shows_ : Shows sb k v) (holds : Holds v.icache e i)
    (typed : (v.icache e).din.type ≠ 0) :
    Refines sb (exec Kernel.ample (readi e off n) k) (v.readi sb e off n) := by
  have inode : k.icache e = v.icache e := by rw [shows_.icache]
  rw [readi,exec_inode,inode,View.readi]
  by_cases device : (v.icache e).din.type = T_DEV
  · rw [if_pos device,if_pos device,shows_.devsw]
    exact ⟨k,rfl,shows_⟩
  · rw [if_neg device,if_neg device]
    by_cases outside : off > (v.icache e).din.size ∨ (off + n) % 2 ^ 32 < off
    · rw [if_pos outside,if_pos outside]
      exact ⟨k,rfl,shows_⟩
    · rw [if_neg outside,if_neg outside]
      exact (refines_readi_from _ _ _ shows_ holds typed).bind fun bytes k' v' _ shows' => ⟨k',rfl,shows'⟩

theorem refines_writei_from (turns off : Nat) (src : List UInt8) (shows_ : Shows sb k v) (holds : Holds v.icache e i)
    (typed : (v.icache e).din.type ≠ 0) :
    Refines sb (exec Kernel.ample (writei_from e turns off src) k)
      (v.writei_from sb e turns off src) := by
  induction turns generalizing off src k v with
  | zero => exact ⟨k,rfl,shows_⟩
  | succ turns ih =>
    rw [writei_from,View.writei_from]
    by_cases done : src.length = 0
    · rw [if_pos done,if_pos done]
      exact ⟨k,rfl,shows_⟩
    · rw [if_neg done,if_neg done]
      refine (refines_bmap shows_ holds typed _).bind fun addr k₁ v₁ mapped shows₁ => ?_
      obtain ⟨works,place,positive,_⟩ := View.bmap_works mapped shows_.zero
      have holds₁ := works.holds holds
      have typed₁ : (v₁.icache e).din.type ≠ 0 := by rw [works.fixed.2.1]; exact typed
      rw [exec_bread (shows₁.idle addr),exec_finish (shows₁.idle addr)]
      simp only [shows₁.journal]
      by_cases outside : k₁.journal.outstanding < 1
      · rw [logging,if_pos outside,logging,if_pos outside]
        rfl
      · rw [logging,if_neg outside,logging,if_neg outside]
        have room : off % BSIZE + (src.take (chunk off src.length)).length ≤ BSIZE := by
          have := chunk_inBlock off src.length
          rw [length_take]
          omega
        have atSlot : addr = v₁.slot i (slotOf (off / BSIZE)) := by rw [place,shows₁.cell holds₁]
        have shows₂ := shows₁.put holds₁ typed₁ (by rw [← atSlot]; exact positive) room
        rw [← atSlot] at shows₂
        exact ih _ _ shows₂ holds₁ typed₁

theorem refines_iupdate (shows_ : Shows sb k v) (holds : Holds v.icache e i) :
    Refines sb (exec Kernel.ample (iupdate e) k) (logging v.journal.outstanding (.ok ((),v.update e))) := by
  rw [exec_iupdate (shows_.idle _),shows_.journal]
  by_cases outside : k.journal.outstanding < 1
  · rw [logging,if_pos outside,logging,if_pos outside]
    rfl
  · rw [logging,if_neg outside,logging,if_neg outside]
    exact ⟨k.update e,rfl,shows_.update holds⟩

theorem refines_writei (off : Nat) (src : List UInt8) (shows_ : Shows sb k v) (holds : Holds v.icache e i)
    (typed : (v.icache e).din.type ≠ 0) (short : src.length < 2 ^ 32) :
    Refines sb (exec Kernel.ample (writei e src off) k) (v.writei sb e src off) := by
  have inode : k.icache e = v.icache e := by rw [shows_.icache]
  rw [writei,exec_inode,inode,View.writei]
  by_cases device : (v.icache e).din.type = T_DEV
  · rw [if_pos device,if_pos device,shows_.devsw]
    exact ⟨k,rfl,shows_⟩
  · rw [if_neg device,if_neg device]
    by_cases outside : off > (v.icache e).din.size ∨ (off + src.length) % 2 ^ 32 < off
    · rw [if_pos outside,if_pos outside]
      exact ⟨k,rfl,shows_⟩
    · rw [if_neg outside,if_neg outside]
      by_cases big : (off + src.length) % 2 ^ 32 > MAXFILE * BSIZE
      · rw [if_pos big,if_pos big]
        exact ⟨k,rfl,shows_⟩
      · rw [if_neg big,if_neg big]
        refine (refines_writei_from _ _ _ shows_ holds typed).bind fun off' k₁ v₁ written shows₁ => ?_
        obtain ⟨works,rfl,_⟩ := View.writei_from_works _ _ _ (Nat.le_refl _) shows_.zero written
        have holds₁ := works.holds holds
        have inode₁ : k₁.icache e = v₁.icache e := by rw [shows₁.icache]
        rw [exec_inode,inode₁]
        simp only
        by_cases grows : src.length > 0 ∧ off + src.length > (v₁.icache e).din.size
        · have small := shows_.sound.fits e
          have fits₁ := shows₁.sound.fits e
          rw [inode] at small
          rw [inode₁] at fits₁
          have bound := small.size
          have fits : ({ (v₁.icache e).din with size := off + src.length } : Dinode).Fits :=
            ⟨by simp only; omega,fits₁.addrs,fits₁.past⟩
          rw [if_pos grows,if_pos grows,exec_modify,inode₁]
          have shows₂ := shows₁.setInode { v₁.icache e with din := { (v₁.icache e).din with size := off + src.length } }
            Iff.rfl rfl rfl rfl rfl fits
          have holds₂ : Holds (v₁.resize e (off + src.length)).icache e i := (holds_update (by rfl) (by rfl) (by rfl) e i).mpr holds₁
          have updated := Refines.bind (f := fun _ => pure (some src.length)) (g := fun r => .ok (some src.length,r.2))
            (refines_iupdate shows₂ holds₂) fun _ k' v' _ shows' => ⟨k',rfl,shows'⟩
          rw [logging_bind] at updated
          exact updated
        · rw [if_neg grows,if_neg grows]
          exact ⟨k₁,rfl,shows₁⟩

end

end

end Osce.Fs
