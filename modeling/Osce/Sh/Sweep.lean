import Osce.Sh.Loop

/-!
When cleaning a list is a filter. The second loop goes past the node after one that it has unlinked: that node is neither looked at nor freed, it is
not cleaned, and it gets lost if the loop unlinks the node behind it.
-/
namespace Osce.Sh
open List

variable {β : Type} {dead : β → Bool} {clean : β → β} {key : β → Nat} {last : Bool} {passed nodes : List β}

/-- The nodes that the second loop leaves after `passed`; it cleans the nodes that it looks at. -/
def keptRest (dead : β → Bool) (clean : β → β) : List β → List β → List β
  | passed, [] => passed
  | passed, [p] => if dead p then [] else passed ++ [clean p]
  | passed, p :: next :: rest =>
    if dead p then keptRest dead clean [next] rest else passed ++ clean p :: keptRest dead clean [] (next :: rest)

def kept (dead : β → Bool) (clean : β → β) (nodes : List β) : List β :=
  match nodes.dropWhile dead with
  | [] => []
  | head :: tail => clean head :: keptRest dead clean [] tail

def swept (dead : β → Bool) (nodes : List β) : List β := nodes.takeWhile dead ++ (lookedRest dead (nodes.dropWhile dead).tail).filter dead

theorem keptRest_id (passed nodes : List β) : keptRest dead id passed nodes = leftRest dead passed nodes := by
  fun_induction keptRest dead id passed nodes with
  | case1 passed => rfl
  | case2 passed p isDead => simp [leftRest,isDead]
  | case3 passed p live => simp [leftRest,live]
  | case4 passed p next rest isDead ih => simp [leftRest,isDead,ih]
  | case5 passed p next rest live ih => simp [leftRest,live,ih]

theorem kept_id (nodes : List β) : kept dead id nodes = left dead nodes := by
  rw [kept,left,afterFirst]
  cases nodes.dropWhile dead with
  | nil => rfl
  | cons head tail => simp [keptRest_id]

/-- What may come after a node that is unlinked: nothing if `last`, or a node that is live and needs no cleaning, and then nothing or a live
    node. -/
def Followed (last : Bool) (dead : β → Bool) (clean : β → β) : List β → Prop
  | [] => last = true
  | [x] => dead x = false ∧ clean x = x
  | x :: y :: _ => dead x = false ∧ clean x = x ∧ dead y = false

def Spaced (last : Bool) (dead : β → Bool) (clean : β → β) : List β → Prop
  | [] => True
  | p :: rest => (dead p = true → Followed last dead clean rest) ∧ Spaced last dead clean rest

/-- The second loop leaves the live nodes, cleaned, and looks at all dead ones. -/
def IsFilter (last : Bool) (dead : β → Bool) (clean : β → β) (passed nodes : List β) : Prop :=
  (last = true ∨ endsGone dead nodes = false) ∧ keptRest dead clean passed nodes = ((passed ++ nodes).filter fun x => !dead x).map clean ∧
    ∀ x ∈ passed ++ nodes, dead x = true → x ∈ lookedRest dead nodes

theorem lookedRest_mem {x : β} (isIn : x ∈ lookedRest dead nodes) : x ∈ nodes := by
  fun_induction lookedRest dead nodes with
  | case1 => exact isIn
  | case2 p => exact isIn
  | case3 p next rest _ ih =>
    rcases mem_cons.mp isIn with rfl | later
    · simp
    · simp [ih later]
  | case4 p next rest _ ih =>
    rcases mem_cons.mp isIn with rfl | later
    · simp
    · exact mem_cons_of_mem _ (ih later)

theorem swept_mem {x : β} (isIn : x ∈ swept dead nodes) : x ∈ nodes ∧ dead x = true := by
  rw [swept,mem_append,mem_filter] at isIn
  rcases isIn with early | ⟨later,isDead⟩
  · exact ⟨(takeWhile_sublist _).mem early,mem_takeWhile_imp early⟩
  · exact ⟨(dropWhile_sublist dead).mem (mem_of_mem_tail (lookedRest_mem later)),isDead⟩

theorem keptRest_key (keeps : ∀ x, key (clean x) = key x) {y : β} (isIn : y ∈ keptRest dead clean passed nodes) :
    ∃ x ∈ passed ++ nodes, key x = key y := by
  fun_induction keptRest dead clean passed nodes with
  | case1 passed => exact ⟨y,by simpa using isIn,rfl⟩
  | case2 passed p _ => cases isIn
  | case3 passed p _ =>
    rcases mem_append.mp isIn with inPassed | isP
    · exact ⟨y,by simp [inPassed],rfl⟩
    · rw [mem_singleton.mp isP]
      exact ⟨p,by simp,(keeps p).symm⟩
  | case4 passed p next rest _ ih =>
    obtain ⟨x,isIn,same⟩ := ih isIn
    exact ⟨x,mem_append_right _ (mem_cons_of_mem _ isIn),same⟩
  | case5 passed p next rest _ ih =>
    rcases mem_append.mp isIn with inPassed | isIn
    · exact ⟨y,by simp [inPassed],rfl⟩
    · rcases mem_cons.mp isIn with rfl | later
      · exact ⟨p,by simp,(keeps p).symm⟩
      · obtain ⟨x,isIn,same⟩ := ih later
        exact ⟨x,mem_append_right _ (mem_cons_of_mem _ isIn),same⟩

theorem keptRest_passed (dead : β → Bool) (clean : β → β) (passed : List β) (y : β) (rest : List β) :
    keptRest dead clean passed (y :: rest) =
      if dead y then keptRest dead clean [] (y :: rest) else passed ++ keptRest dead clean [] (y :: rest) := by
  cases rest with
  | nil => cases isDead : dead y <;> simp [keptRest,isDead]
  | cons next rest => cases isDead : dead y <;> simp [keptRest,isDead]

/-- A node that was passed has to be live and clean, and the next one that is looked at live. -/
theorem isFilter_passed {x : β} (keeps : ∀ x, key (clean x) = key x) (nodup : ((x :: nodes).map key).Nodup) :
    IsFilter last dead clean [x] nodes ↔ dead x = false ∧ clean x = x ∧ (∀ y ∈ nodes.head?, dead y = false) ∧ IsFilter last dead clean [] nodes := by
  obtain ⟨other,-⟩ := nodup_cons.mp nodup
  have unseen : x ∉ lookedRest dead nodes := fun seen => other (mem_map_of_mem (lookedRest_mem seen))
  cases nodes with
  | nil =>
    cases isDead : dead x <;> simp [IsFilter,keptRest,endsGone,lookedRest,isDead,eq_comm (a := x)]
  | cons y rest =>
    cases deadX : dead x with
    | true =>
      -- nobody frees it
      constructor
      · intro isFilter
        exact absurd (isFilter.2.2 x (by simp) deadX) unseen
      · rintro ⟨⟨⟩,-⟩
    | false =>
      cases deadY : dead y with
      | true =>
        constructor
        · rintro ⟨-,left',-⟩
          -- it is lost
          rw [keptRest_passed,if_pos deadY] at left'
          have isIn : clean x ∈ keptRest dead clean [] (y :: rest) := by
            rw [left']
            simp [deadX]
          obtain ⟨z,there,same⟩ := keptRest_key keeps isIn
          exact absurd (mem_map.mpr ⟨z,there,same.trans (keeps x)⟩) other
        · rintro ⟨-,-,live,-⟩
          rw [live y rfl] at deadY
          cases deadY
      | false =>
        have seen : (∀ z ∈ [x] ++ y :: rest, dead z = true → z ∈ lookedRest dead (y :: rest)) ↔
            ∀ z ∈ [] ++ y :: rest, dead z = true → z ∈ lookedRest dead (y :: rest) := by
          rw [singleton_append,forall_mem_cons,deadX,nil_append]
          simp
        rw [IsFilter,IsFilter,seen,keptRest_passed,deadY,singleton_append,singleton_append,filter_cons,deadX]
        simp [deadY,eq_comm (a := x)]
        tauto

theorem seen_cons {p : β} {rest : List β} (seen : List β) (other : ∀ z ∈ rest, dead z = true → z ≠ p) :
    (∀ z ∈ p :: rest, dead z = true → z ∈ p :: seen) ↔ ∀ z ∈ rest, dead z = true → z ∈ seen := by
  rw [forall_mem_cons]
  constructor
  · rintro ⟨-,all⟩ z isIn deadZ
    exact (mem_cons.mp (all z isIn deadZ)).resolve_left (other z isIn deadZ)
  · intro all
    exact ⟨fun _ => mem_cons_self ..,fun z isIn deadZ => mem_cons_of_mem _ (all z isIn deadZ)⟩

theorem ne_of_key {p z : β} {rest : List β} (other : key p ∉ rest.map key) (isIn : z ∈ rest) : z ≠ p := by
  rintro rfl
  exact other (mem_map_of_mem isIn)

/-- The second loop is a filter exactly if each dead node is followed as it may be. -/
theorem isFilter_spaced (keeps : ∀ x, key (clean x) = key x) (nodup : (nodes.map key).Nodup) :
    IsFilter last dead clean [] nodes ↔ Spaced last dead clean nodes := by
  fun_induction lookedRest dead nodes with
  | case1 => simp [IsFilter,Spaced,keptRest,endsGone,lookedRest]
  | case2 p =>
    cases isDead : dead p <;> simp [IsFilter,Spaced,keptRest,endsGone,lookedRest,Followed,isDead]
  | case3 p next rest isDead ih =>
    obtain ⟨other,nodup⟩ := nodup_cons.mp nodup
    have seen := seen_cons (lookedRest dead rest) fun z isIn (_ : dead z = true) => ne_of_key other isIn
    have skipped : IsFilter last dead clean [] (p :: next :: rest) ↔ IsFilter last dead clean [next] rest := by
      simp only [IsFilter,endsGone,keptRest,lookedRest,isDead,if_true,nil_append,seen,singleton_append]
      simp [filter_cons,isDead]
    rw [skipped,isFilter_passed keeps nodup,ih (nodup_cons.mp nodup).2]
    cases rest with
    | nil =>
      simp [Spaced,Followed,isDead]
      grind
    | cons y rest =>
      simp [Spaced,Followed,isDead]
      grind
  | case4 p next rest live ih =>
    have live : dead p = false := by simpa using live
    have other : ∀ z ∈ next :: rest, dead z = true → z ≠ p := by
      rintro z - deadZ rfl
      rw [live] at deadZ
      cases deadZ
    have seen := seen_cons (lookedRest dead (next :: rest)) other
    have looked : IsFilter last dead clean [] (p :: next :: rest) ↔ IsFilter last dead clean [] (next :: rest) := by
      rw [IsFilter,IsFilter,keptRest,endsGone,lookedRest]
      simp only [live,Bool.false_eq_true,if_false,nil_append,seen,filter_cons_of_pos (p := fun x => !dead x) (a := p) (by simp [live])]
      simp
    rw [looked,ih (nodup_cons.mp nodup).2]
    simp [Spaced,live]

/-- Cleaning leaves the live nodes, cleaned, and frees the dead ones. -/
theorem swept_iff (keeps : ∀ x, key (clean x) = key x) (nodup : (nodes.map key).Nodup) :
    ((last = true ∨ falls dead nodes = false) ∧ kept dead clean nodes = (nodes.filter fun x => !dead x).map clean ∧
      ∀ x ∈ nodes, dead x = true → x ∈ swept dead nodes) ↔ Spaced last dead clean (nodes.dropWhile dead) := by
  induction nodes with
  | nil => simp [falls,endsGone,kept,swept,Spaced]
  | cons p rest ih =>
    obtain ⟨other,nodup'⟩ := nodup_cons.mp nodup
    cases isDead : dead p with
    | true =>
      have sweptCons : swept dead (p :: rest) = p :: swept dead rest := by simp [swept,isDead]
      have seen := seen_cons (swept dead rest) fun z isIn (_ : dead z = true) => ne_of_key other isIn
      rw [sweptCons,seen,dropWhile_cons_of_pos isDead,← ih nodup']
      simp [falls,kept,isDead]
    | false =>
      have seen : (∀ x ∈ p :: rest, dead x = true → x ∈ swept dead (p :: rest)) ↔ ∀ x ∈ [] ++ rest, dead x = true → x ∈ lookedRest dead rest := by
        simp +contextual [swept,isDead]
      rw [dropWhile_cons_of_neg (by simp [isDead]),Spaced,isDead,← isFilter_spaced keeps nodup',IsFilter,seen]
      simp [falls,kept,isDead]

def visited (dead : β → Bool) (nodes : List β) : List β := nodes.takeWhile dead ++ looked dead nodes

theorem visited_mem {x : β} (isIn : x ∈ visited dead nodes) : x ∈ nodes := by
  rcases mem_append.mp isIn with early | later
  · exact (takeWhile_sublist _).mem early
  · rw [looked,afterFirst] at later
    refine (dropWhile_sublist dead).mem ?_
    cases live : nodes.dropWhile dead with
    | nil =>
      rw [live] at later
      cases later
    | cons head tail =>
      rw [live] at later
      rcases mem_cons.mp later with rfl | later
      · exact mem_cons_self ..
      · exact mem_cons_of_mem _ (lookedRest_mem later)

theorem swept_visited {x : β} (isDead : dead x = true) : x ∈ swept dead nodes ↔ x ∈ visited dead nodes := by
  rw [swept,visited,mem_append,mem_append,looked,afterFirst,mem_filter]
  cases live : nodes.dropWhile dead with
  | nil => simp [lookedRest]
  | cons head tail =>
    have notDead := dropWhile_get_zero_not dead nodes (by simp [live])
    have other : x ≠ head := by
      rintro rfl
      simp [live,isDead] at notDead
    simp [isDead,other]

/-- A node that is not looked at needs no cleaning. -/
theorem spaced_looked (spaced : Spaced last dead clean nodes) : ∀ x ∈ nodes, x ∈ lookedRest dead nodes ∨ clean x = x := by
  fun_induction lookedRest dead nodes with
  | case1 => simp
  | case2 p => simp
  | case3 p next rest isDead ih =>
    obtain ⟨followed,-,spaced⟩ := spaced
    have isClean : clean next = next := by
      cases rest with
      | nil => exact (followed isDead).2
      | cons y rest => exact (followed isDead).2.1
    intro x member
    rcases mem_cons.mp member with rfl | member
    · exact .inl (mem_cons_self ..)
    · rcases mem_cons.mp member with rfl | member
      · exact .inr isClean
      · exact (ih spaced x member).imp (mem_cons_of_mem _) id
  | case4 p next rest _ ih =>
    intro x member
    rcases mem_cons.mp member with rfl | member
    · exact .inl (mem_cons_self ..)
    · exact (ih spaced.2 x member).imp (mem_cons_of_mem _) id

theorem spaced_visited (spaced : Spaced last dead clean (nodes.dropWhile dead)) : ∀ x ∈ nodes, x ∈ visited dead nodes ∨ clean x = x := by
  intro x member
  rw [← takeWhile_append_dropWhile (p := dead) (l := nodes)] at member
  rw [visited,looked,afterFirst]
  rcases mem_append.mp member with early | later
  · exact .inl (mem_append_left _ early)
  · cases live : nodes.dropWhile dead with
    | nil =>
      rw [live] at later
      cases later
    | cons head tail =>
      rw [live] at later spaced
      rcases mem_cons.mp later with rfl | later
      · exact .inl (by simp)
      · exact (spaced_looked spaced.2 x later).imp (fun seen => mem_append_right _ (mem_cons_of_mem _ seen)) id

theorem spaced_map {γ : Type} (f : γ → β) (nodes : List γ) : Spaced last dead id (nodes.map f) → Spaced last (dead ∘ f) id nodes := by
  induction nodes with
  | nil => exact id
  | cons p rest ih =>
    rintro ⟨followed,spaced⟩
    refine ⟨fun isDead => ?_,ih spaced⟩
    have followed := followed isDead
    cases rest with
    | nil => exact followed
    | cons x rest =>
      cases rest with
      | nil => exact ⟨followed.1,rfl⟩
      | cons y rest => exact ⟨followed.1,rfl,followed.2.2⟩

end Osce.Sh
