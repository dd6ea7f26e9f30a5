import Osce.Bcache

/-!
The list of all buffers of bio.c with its pointers, as `binit` links it, `brelse` relinks it and
`bget` follows it.
-/
namespace Osce.Bcache.Recency
open Osce.Lib Osce.Layout Function
open Equiv (Perm swap)

/-- A buffer, or the head of the list. -/
abbrev Node := Option BufId

structure State where
  next : Node → Node
  prev : Node → Node
  bufs : BufId → Buf
  /-- The buffers that were released so far, the last one first. -/
  released : List BufId

def State.unlink (s : State) (b : BufId) : State :=
  let s := { s with prev := Function.update s.prev (s.next b) (s.prev b) }
  { s with next := Function.update s.next (s.prev b) (s.next b) }

def State.link (s : State) (b : BufId) : State :=
  let s := { s with next := Function.update s.next b (s.next none) }
  let s := { s with prev := Function.update s.prev b none }
  let s := { s with prev := Function.update s.prev (s.next none) b }
  { s with next := Function.update s.next none b }

/-- The loop of `binit` over the buffers; their own pointers do not matter before. -/
def binit : State :=
  (List.finRange NBUF).foldl State.link ⟨id,id,fun _ => ⟨false,false,false,(NODEV,0),Bytes.zero BSIZE⟩,[]⟩

/-- The first buffer that passes a test, from a node on up to the head. -/
def scan (follow : Node → Node) (test : BufId → Bool) : Nat → Node → Option (Option BufId)
  | 0, _ => none
  | _+1, none => some none
  | turns+1, some b => if test b then some (some b) else scan follow test turns (follow b)

def State.free (s : State) (b : BufId) : Bool := !(s.bufs b).busy && !(s.bufs b).dirty

/-- One pass of `bget` from `loop` on, with the buffer if it is found; otherwise the process sleeps. -/
def bget (turns : Nat) (s : State) (key : Key) : Option (Except String (State × Option BufId)) :=
  match scan s.next (fun b => (s.bufs b).key = key) turns (s.next none) with
  | none => none
  | some (some b) =>
    if (s.bufs b).busy then some (.ok (s,none))
    else some (.ok ({ s with bufs := Function.update s.bufs b { s.bufs b with busy := true } },some b))
  | some none =>
    match scan s.prev s.free turns (s.prev none) with
    | none => none
    | some (some b) =>
      let recycled := { s.bufs b with key := key, busy := true, valid := false, dirty := false }
      some (.ok ({ s with bufs := Function.update s.bufs b recycled },some b))
    | some none => some (.error "bget: no buffers")

def brelse (s : State) (b : BufId) : Except String State :=
  if (s.bufs b).busy then
    let s := (s.unlink b).link b
    .ok { s with bufs := Function.update s.bufs b { s.bufs b with busy := false }, released := b :: s.released }
  else .error "brelse"

inductive Call where
  | bget (key : Key)
  | brelse (b : BufId)
  /-- The other flags and the data change. -/
  | change (b : BufId) (valid dirty : Bool) (data : Block)

def step (turns : Nat) (s : State) : Call → Option (Except String State)
  | .bget key => (bget turns s key).map (·.map Prod.fst)
  | .brelse b => some (brelse s b)
  | .change b valid dirty data => some (.ok { s with bufs := Function.update s.bufs b { s.bufs b with valid, dirty, data } })

def Reachable (turns : Nat) : State → Prop := Steps.Reachable (step turns) (fun _ _ => True) binit

/-- The pointers lead from a node through these buffers to the head. -/
def Walk (follow : Node → Node) : Node → List BufId → Prop
  | x, [] => follow x = none
  | x, b :: rest => follow x = some b ∧ Walk follow b rest

/-- The first one was released after the second one last; those that never were are in the order in which `binit` leaves them. -/
def Later (released : List BufId) (a b : BufId) : Prop :=
  released.idxOf a < released.idxOf b ∨ a ∉ released ∧ b ∉ released ∧ b < a

instance (released : List BufId) (a b : BufId) : Decidable (Later released a b) := inferInstanceAs (Decidable (_ ∨ _))

section
variable {s : State} {b : BufId} {order : List BufId} {follow : Node → Node}

theorem scan_walk (test : BufId → Bool) {x : Node} (walk : Walk follow x order) {turns : Nat} (enough : order.length < turns) :
    scan follow test turns (follow x) = some (order.find? test) := by
  induction order generalizing x turns with
  | nil =>
    obtain ⟨turns,rfl⟩ : ∃ k, turns = k + 1 := ⟨turns - 1,by omega⟩
    rw [walk]
    rfl
  | cons b rest ih =>
    obtain ⟨turns,rfl⟩ : ∃ k, turns = k + 1 := ⟨turns - 1,by omega⟩
    rw [walk.1,scan,List.find?_cons,ih walk.2 (by simpa using enough)]
    cases test b <;> rfl

def ring (order : List BufId) : Perm Node := (none :: order.map some).formPerm

theorem nodup_ring (nodup : order.Nodup) : (none :: order.map some).Nodup := by
  simpa using nodup.map (Option.some_injective _)

theorem ring_erase (nodup : order.Nodup) (member : b ∈ order) : ring (order.erase b) = swap (some b) (ring order b) * ring order := by
  obtain ⟨first,rest,-,rfl,erased⟩ := List.exists_erase_eq member
  have nodup' := nodup_ring nodup
  have turned : (none :: (first ++ b :: rest).map some) ~r some b :: (rest.map some ++ none :: first.map some) := by
    simpa using @List.isRotated_append _ (none :: first.map some) (some b :: rest.map some)
  have back : (rest.map some ++ none :: first.map some) ~r none :: (first ++ rest).map some := by
    simpa using @List.isRotated_append _ (rest.map some) (none :: first.map some)
  have apart := turned.nodup_iff.mp nodup'
  rw [ring,ring,erased,List.formPerm_eq_of_isRotated nodup' turned,← List.formPerm_eq_of_isRotated (List.nodup_cons.mp apart).2 back]
  generalize rest.map some ++ none :: first.map some = others at apart back
  cases others with
  | nil => simp at back
  | cons y others => rw [List.formPerm_apply_head _ _ _ apart,List.formPerm_cons_cons,Equiv.swap_mul_self_mul]

theorem ring_cons (nodup : (b :: order).Nodup) : ring (b :: order) = swap (some b) (ring order none) * ring order := by
  have erase := ring_erase nodup (List.mem_cons_self ..)
  rw [List.erase_cons_head] at erase
  have first : ring (b :: order) none = some b := List.formPerm_apply_head _ _ _ (nodup_ring nodup)
  have second : ring order none = ring (b :: order) b := by rw [erase,Perm.mul_apply,first,Equiv.swap_apply_left]
  rw [second,erase,Equiv.swap_mul_self_mul]

theorem ring_inv (nodup : order.Nodup) : (ring order)⁻¹ = ring order.reverse := by
  have turned : (none :: order.map some).reverse ~r none :: order.reverse.map some := by
    simpa using @List.isRotated_append _ (order.map some).reverse [none]
  rw [ring,← List.formPerm_reverse,List.formPerm_eq_of_isRotated (List.nodup_reverse.mpr (nodup_ring nodup)) turned,ring]

theorem walk_ring (nodup : order.Nodup) : Walk (ring order) none order := by
  have walk (rest : List BufId) : ∀ pre x, none :: order.map some = pre ++ x :: rest.map some → Walk (ring order) x rest := by
    have rotated (pre : List Node) (x : Node) (rest : List BufId) (split : none :: order.map some = pre ++ x :: rest.map some) :
        ring order = (x :: (rest.map some ++ pre)).formPerm ∧ (x :: (rest.map some ++ pre)).Nodup := by
      have turned : (none :: order.map some) ~r x :: (rest.map some ++ pre) := by
        rw [split]
        exact @List.isRotated_append _ _ (x :: rest.map some)
      exact ⟨List.formPerm_eq_of_isRotated (nodup_ring nodup) turned,turned.nodup_iff.mp (nodup_ring nodup)⟩
    induction rest with
    | nil =>
      intro pre x split
      obtain ⟨same,apart⟩ := rotated pre x [] split
      rw [Walk,same]
      cases pre <;> obtain rfl := (List.cons.inj split).1
      · rfl
      · exact List.formPerm_apply_head _ _ _ apart
    | cons b rest ih =>
      intro pre x split
      obtain ⟨same,apart⟩ := rotated pre x (b :: rest) split
      refine ⟨?_,ih (pre ++ [x]) b (by simpa using split)⟩
      rw [same]
      exact List.formPerm_apply_head _ _ _ apart
  exact walk order [] none rfl

def Linked (s : State) (order : List BufId) : Prop := s.next = ring order ∧ s.prev = (ring order)⁻¹

/-- The pointers were those of the ring, but for those of a buffer that was not in it. -/
theorem linked_link (linked : ∀ x ≠ some b, s.next x = ring order x ∧ s.prev x = (ring order)⁻¹ x) (nodup : (b :: order).Nodup) :
    Linked (s.link b) (b :: order) := by
  rw [Linked,ring_cons nodup]
  have fixed : ring order b = b := List.formPerm_apply_of_notMem (by simpa using (List.nodup_cons.mp nodup).1)
  have head := (linked none nofun).1
  generalize ring order = ρ at *
  constructor <;> funext x
  · rw [Perm.mul_apply]
    by_cases isHead : x = none
    · simp [State.link,isHead]
    by_cases isB : x = b
    · simp [State.link,isB,fixed,head]
    have other : ρ x ≠ b := fun same => isB (ρ.injective (same.trans fixed.symm))
    rw [Equiv.swap_apply_of_ne_of_ne other (fun same => isHead (ρ.injective same))]
    simp [State.link,isHead,isB,(linked x isB).1]
  · rw [mul_inv_rev,Equiv.swap_inv,Perm.mul_apply]
    by_cases second : x = ρ none
    · rw [second,Equiv.swap_apply_right,Perm.inv_eq_iff_eq.mpr fixed.symm]
      simp [State.link,head]
    by_cases isB : x = b
    · rw [isB] at second
      simp [State.link,isB,head,second]
    · rw [Equiv.swap_apply_of_ne_of_ne isB second]
      simp [State.link,head,second,isB,(linked x isB).2]

theorem unlink_linked (linked : Linked s order) (nodup : order.Nodup) (member : b ∈ order) (x : Node) (other : x ≠ b) :
    (s.unlink b).next x = ring (order.erase b) x ∧ (s.unlink b).prev x = (ring (order.erase b))⁻¹ x := by
  rw [ring_erase nodup member,State.unlink,linked.1,linked.2,mul_inv_rev,Equiv.swap_inv,Perm.mul_apply,Perm.mul_apply]
  generalize ring order = π
  constructor
  · have prev : update (⇑π⁻¹) (π b) (π⁻¹ b) b = π⁻¹ b := by rw [update_apply,ite_self]
    dsimp only
    rw [prev]
    by_cases before : x = π⁻¹ b
    · simp [before]
    · rw [update_of_ne before,Equiv.swap_apply_of_ne_of_ne (fun same => before (Perm.eq_inv_iff_eq.mpr same)) fun same => other (π.injective same)]
  · by_cases after : x = π b
    · simp [after]
    · rw [Equiv.swap_apply_of_ne_of_ne other after]
      simp [after]

structure Inv (s : State) (order : List BufId) : Prop where
  nodup : order.Nodup
  all : ∀ b, b ∈ order
  linked : Linked s order
  recent : order.Pairwise (Later s.released)

theorem inv_binit : Inv binit (List.finRange NBUF).reverse := by
  have loop (l order : List BufId) (s : State) (linked : Linked s order) (nodup : (l.reverse ++ order).Nodup) :
      Linked (l.foldl State.link s) (l.reverse ++ order) ∧ (l.foldl State.link s).released = s.released := by
    induction l generalizing order s with
    | nil => exact ⟨linked,rfl⟩
    | cons b l ih =>
      rw [List.reverse_cons,List.append_assoc] at nodup ⊢
      exact ih (b :: order) (s.link b) (linked_link (fun x _ => ⟨congrFun linked.1 x,congrFun linked.2 x⟩) nodup.of_append_right) nodup
  obtain ⟨linked,none⟩ := loop (List.finRange NBUF) [] ⟨id,id,fun _ => ⟨false,false,false,(NODEV,0),Bytes.zero BSIZE⟩,[]⟩
    ⟨rfl,rfl⟩ (by simp [List.nodup_finRange])
  rw [List.append_nil] at linked
  refine ⟨by simp [List.nodup_finRange],by simp,linked,?_⟩
  rw [List.pairwise_reverse,binit,none]
  exact (List.pairwise_lt_finRange _).imp fun less => .inr ⟨List.not_mem_nil,List.not_mem_nil,less⟩

theorem Inv.brelse {s' : State} (inv : Inv s order) (run : brelse s b = .ok s') : Inv s' (b :: order.erase b) := by
  rw [Recency.brelse] at run
  split_ifs at run
  cases run
  have notIn := inv.nodup.not_mem_erase (a := b)
  have nodup : (b :: order.erase b).Nodup := List.nodup_cons.mpr ⟨notIn,inv.nodup.erase b⟩
  refine ⟨nodup,fun c => ?_,linked_link (unlink_linked inv.linked inv.nodup (inv.all b)) nodup,?_⟩
  · by_cases same : c = b
    · simp [same]
    · simp [same,inv.all c]
  · have index {c : BufId} (member : c ∈ order.erase b) : (b :: s.released).idxOf c = s.released.idxOf c + 1 :=
      List.idxOf_cons_ne _ fun same => notIn (same ▸ member)
    refine List.pairwise_cons.mpr ⟨fun c member => .inl ?_,(inv.recent.sublist List.erase_sublist).imp_of_mem fun {c d} first second later => ?_⟩
    · show (b :: s.released).idxOf b < (b :: s.released).idxOf c
      rw [List.idxOf_cons_self,index member]
      exact Nat.succ_pos _
    · show (b :: s.released).idxOf c < (b :: s.released).idxOf d ∨ c ∉ b :: s.released ∧ d ∉ b :: s.released ∧ d < c
      rw [index first,index second]
      have notC : c ≠ b := fun same => notIn (same ▸ first)
      have notD : d ≠ b := fun same => notIn (same ▸ second)
      simpa [Later,notC,notD] using later

theorem Reachable.inv {turns : Nat} (reachable : Reachable turns s) : ∃ order, Inv s order := by
  refine Steps.Reachable.invariant (I := fun s => ∃ order, Inv s order) reachable ⟨_,inv_binit⟩ fun s a s' _ ⟨order,inv⟩ _ taken => ?_
  have same (bufs : BufId → Buf) : Inv { s with bufs } order := ⟨inv.nodup,inv.all,inv.linked,inv.recent⟩
  cases a with
  | bget key =>
    obtain ⟨r,run,isS⟩ := Option.map_eq_some_iff.mp taken
    rw [bget] at run
    split at run
    · cases run
    · split at run <;> cases run <;> cases isS
      · exact ⟨order,inv⟩
      · exact ⟨order,same _⟩
    · split at run <;> cases run <;> cases isS
      exact ⟨order,same _⟩
  | brelse b => exact ⟨_,inv.brelse (Option.some.inj taken)⟩
  | change b valid dirty data =>
    cases taken
    exact ⟨order,same _⟩

/-- In every run the list is a ring through the head, in both directions. The buffers stand in
    the order in which they were released, the last one first, and if `bget` has to recycle one,
    it takes the one that was released before all others that are neither busy nor dirty. -/
theorem recency_list {turns : Nat} (enough : NBUF < turns) (reachable : Reachable turns s) : ∃ order : List BufId,
    (order.Nodup ∧ ∀ b, b ∈ order) ∧ (Walk s.next none order ∧ Walk s.prev none order.reverse) ∧
    (∀ x, s.next (s.prev x) = x ∧ s.prev (s.next x) = x) ∧ order.Pairwise (Later s.released) ∧
    ∀ key, (∀ b, (s.bufs b).key ≠ key) →
      (∃ b, s.free b = true ∧ (∀ c, s.free c = true → c ≠ b → Later s.released c b) ∧ ∃ s', bget turns s key = some (.ok (s',some b))) ∨
      (∀ b, s.free b = false) ∧ bget turns s key = some (.error "bget: no buffers") := by
  obtain ⟨order,inv⟩ := reachable.inv
  have forth : Walk s.next none order := by
    rw [inv.linked.1]
    exact walk_ring inv.nodup
  have back : Walk s.prev none order.reverse := by
    rw [inv.linked.2,ring_inv inv.nodup]
    exact walk_ring (List.nodup_reverse.mpr inv.nodup)
  have count : order.length < turns := lt_of_le_of_lt (by simpa using inv.nodup.length_le_card) enough
  refine ⟨order,⟨inv.nodup,inv.all⟩,⟨forth,back⟩,fun x => by simp [inv.linked.1,inv.linked.2],inv.recent,fun key absent => ?_⟩
  have missing : order.find? (fun b => (s.bufs b).key = key) = none := List.find?_eq_none.mpr fun b _ => by simpa using absent b
  rw [bget,scan_walk _ forth count,missing]
  dsimp only
  rw [scan_walk _ back (by simpa using count)]
  cases found : order.reverse.find? s.free with
  | none => exact .inr ⟨fun b => by simpa using List.find?_eq_none.mp found b (by simpa using inv.all b),rfl⟩
  | some b =>
    obtain ⟨isFree,older,newer,split,busy⟩ := List.find?_eq_some_iff_append.mp found
    refine .inl ⟨b,isFree,fun c free other => ?_,_,rfl⟩
    have recent := List.pairwise_reverse.mpr inv.recent
    have member := List.mem_reverse.mpr (inv.all c)
    rw [split] at recent member
    rcases List.mem_append.mp member with isOlder | isNewer
    · have taken := busy c isOlder
      rw [free] at taken
      cases taken
    · exact (List.pairwise_cons.mp (List.pairwise_append.mp recent).2.1).1 c ((List.mem_cons.mp isNewer).resolve_left other)

end

def buffer (i : Nat) : BufId := if inside : i < NBUF then ⟨i,inside⟩ else oldest

/-- Three buffers are released in another order than they were taken, and the one that was released first is used again. -/
def releases : List Call :=
  [.bget (1,5),.bget (1,6),.bget (1,7),.brelse (buffer 1),.brelse (buffer 0),.brelse (buffer 2),.bget (1,6),.brelse (buffer 1)]

theorem recency_list_releases : ∃ s order, Steps.run (step 31) (fun _ _ => True) binit releases = some s ∧ Walk s.next none order ∧
    order.take 3 = [buffer 1,buffer 2,buffer 0] ∧ ∃ s', bget 31 s (1,9) = some (.ok (s',some (buffer 3))) := by
  have stands : (Steps.run (step 31) (fun _ _ => True) binit releases).any (fun s => decide (s.next none = some (buffer 1) ∧
      s.next (buffer 1) = some (buffer 2) ∧ s.next (buffer 2) = some (buffer 0) ∧ (∀ b, (s.bufs b).key ≠ (1,9)) ∧ s.free (buffer 3) = true ∧
      ∀ b, s.free b = true → b ≠ buffer 3 → ¬Later s.released (buffer 3) b)) = true := by decide +kernel
  obtain ⟨s,run,here⟩ := (Option.any_eq_true _ _).mp stands
  obtain ⟨first,second,third,absent,free,last⟩ := of_decide_eq_true here
  obtain ⟨order,-,⟨walk,-⟩,-,-,recycles⟩ := recency_list (show NBUF < 31 by decide) (Steps.reachable_run .start run)
  refine ⟨s,order,run,walk,?_,?_⟩
  · rcases order with _ | ⟨a,_ | ⟨b,_ | ⟨c,rest⟩⟩⟩ <;> simp_all [Walk]
  · rcases recycles (1,9) absent with ⟨b,isFree,older,s',taken⟩ | ⟨busy,-⟩
    · obtain rfl : b = buffer 3 := by
        by_contra other
        exact last b isFree other (older _ free (Ne.symm other))
      exact ⟨s',taken⟩
    · rw [busy] at free
      cases free

section
variable {P : Type} [DecidableEq P] {disksize turns : Nat} {disk : Disk} {t t' : Bcache.State P} {a : Action P} {s : State}

/-- The same buffers, with pointers that lead through the list. -/
structure Links (s : State) (t : Bcache.State P) : Prop where
  bufs : s.bufs = t.bufs
  inv : Inv s t.order

omit [DecidableEq P] in
/-- The loops of `bget` find what the list says. -/
theorem Links.scans (enough : NBUF < turns) (links : Links s t) (key : Key) :
    scan s.next (fun b => (s.bufs b).key = key) turns (s.next none) = some (t.cached key) ∧
    scan s.prev s.free turns (s.prev none) = some t.victim := by
  obtain ⟨bufs,nodup,all,linked,-⟩ := links
  have count : t.order.length < turns := lt_of_le_of_lt (by simpa using nodup.length_le_card) enough
  have free : s.free = fun b => !(t.bufs b).busy && !(t.bufs b).dirty := by
    funext b
    rw [State.free,bufs]
  rw [linked.1,linked.2,ring_inv nodup,scan_walk _ (walk_ring nodup) count,
    scan_walk _ (walk_ring (List.nodup_reverse.mpr nodup)) (by simpa using count),bufs,free]
  exact ⟨rfl,rfl⟩

/-- A step of the cache is a call over the pointers, or leaves the buffers alone. -/
theorem Links.moves (enough : NBUF < turns) (links : Links s t) (owned : Owned t) (moves : Moves disksize t a t') :
    ∃ s', (s' = s ∨ ∃ call, step turns s call = some (.ok s')) ∧ Links s' t' := by
  have takes (b : BufId) (v : Buf) (call : Call) (taken : step turns s call = some (.ok { s with bufs := update s.bufs b v }))
      (order : t'.order = t.order) (bufs : t'.bufs = update t.bufs b v) :
      ∃ s', (s' = s ∨ ∃ call, step turns s call = some (.ok s')) ∧ Links s' t' := by
    refine ⟨_,.inr ⟨call,taken⟩,?_,?_⟩
    · rw [bufs,links.bufs]
    · rw [order]
      exact ⟨links.inv.nodup,links.inv.all,links.inv.linked,links.inv.recent⟩
  have changes (b : BufId) (v : Buf) (busy : v.busy = (t.bufs b).busy) (key : v.key = (t.bufs b).key) :=
    takes b v (.change b v.valid v.dirty v.data) (by simp [step,links.bufs,← busy,← key])
  have finds := links.scans enough
  cases moves
  case hit p key b here found free =>
    refine takes b { t.bufs b with busy := true } (.bget key) ?_ rfl rfl
    rw [step,Recency.bget,(finds key).1,found]
    simp [links.bufs,free,Except.map]
  case recycle p key b here missing found =>
    refine takes b { t.bufs b with key := key, busy := true, valid := false, dirty := false } (.bget key) ?_ rfl rfl
    rw [step,Recency.bget,(finds key).1,missing]
    simp only [(finds key).2,found,links.bufs]
    rfl
  case load b disk v here invalid done | iderw b disk v here done =>
    obtain ⟨busy,key,-⟩ := iderw_keeps done
    exact changes b v (busy.trans (iderw_ok done).1.symm) key rfl rfl
  case modify p b data here mine => exact changes b { t.bufs b with data := data } rfl rfl rfl rfl
  case log_write p b here mine | bwrite p b here mine => exact changes b { t.bufs b with dirty := true } rfl rfl rfl rfl
  case brelse p b here mine saved =>
    have busy : (s.bufs b).busy = true := by rw [links.bufs,owned.busy p b mine]
    have run : Recency.brelse s b = .ok _ := if_pos busy
    refine ⟨_,.inr ⟨.brelse b,congrArg some run⟩,?_,links.inv.brelse run⟩
    exact congrArg (fun bufs => update bufs b { bufs b with busy := false }) links.bufs
  all_goals exact ⟨s,.inl rfl,links.bufs,links.inv⟩

/-- Every state of the cache is one of the pointers after the same calls: the buffers are the
    same, and the loops of `bget` along `next` and `prev` end and find what the list says. -/
theorem list_linked (enough : NBUF < turns) (reachable : Bcache.Reachable disksize disk t) :
    ∃ s, Reachable turns s ∧ s.bufs = t.bufs ∧ ∀ key,
      scan s.next (fun b => (s.bufs b).key = key) turns (s.next none) = some (t.cached key) ∧
      scan s.prev s.free turns (s.prev none) = some t.victim := by
  obtain ⟨s,run,links⟩ : ∃ s, Reachable turns s ∧ Links s t := by
    refine Steps.Reachable.invariant (I := fun t => ∃ s, Reachable turns s ∧ Links s t) reachable ?_ ?_
    · refine ⟨binit,.start,?_,inv_binit⟩
      rfl
    · rintro t a t' before ⟨s,run,links⟩ - taken
      obtain ⟨s',same | ⟨call,called⟩,links'⟩ := links.moves enough (inv_reachable before).1 (moves_of_step taken)
      · exact ⟨s',same ▸ run,links'⟩
      · exact ⟨s',.step run trivial called,links'⟩
  exact ⟨s,run,links.bufs,links.scans enough⟩

end

theorem list_linked_reread : ∃ s, Reachable 31 s ∧
    scan s.next (fun b => (s.bufs b).key = (1,29)) 31 (s.next none) = some (some oldest) := by
  have stands : (Steps.run (Bcache.step 1024) (fun _ _ => True) (State.init (Fin 2) fun _ => Bytes.zero BSIZE) reread).any
      (fun t => decide (t.cached (1,29) = some oldest)) = true := by decide +kernel
  obtain ⟨t,taken,cached⟩ := (Option.any_eq_true _ _).mp stands
  obtain ⟨s,run,-,finds⟩ := list_linked (show NBUF < 31 by decide) (Steps.reachable_run .start taken)
  exact ⟨s,run,of_decide_eq_true cached ▸ (finds (1,29)).1⟩

end Osce.Bcache.Recency
