import Mathlib

/-!
Singly linked lists in memory. What the memory has at an address is some data and the address of the next node; null is 0 and ends the list.
Such a list has no cycle, and the memory determines it.
-/
namespace Osce.Lib

variable {δ : Type} {link link' : Nat → Option (δ × Nat)} {p : Nat} {nodes xs ys : List (Nat × δ)}

/-- The nodes from `p` on, each with its address and its data. -/
def Chain (link : Nat → Option (δ × Nat)) : Nat → List (Nat × δ) → Prop
  | p, [] => p = 0
  | p, (a,d) :: rest => p = a ∧ a ≠ 0 ∧ ∃ next, link a = some (d,next) ∧ Chain link next rest

def addrs (nodes : List (Nat × δ)) : List Nat := nodes.map Prod.fst

@[simp] theorem addrs_nil : addrs ([] : List (Nat × δ)) = [] := rfl
@[simp] theorem addrs_cons (node : Nat × δ) (nodes : List (Nat × δ)) : addrs (node :: nodes) = node.1 :: addrs nodes := rfl
@[simp] theorem addrs_append (xs ys : List (Nat × δ)) : addrs (xs ++ ys) = addrs xs ++ addrs ys := List.map_append

theorem mem_addrs {a : Nat} : a ∈ addrs nodes ↔ ∃ node ∈ nodes, node.1 = a := List.mem_map

def first : List (Nat × δ) → Nat
  | [] => 0
  | node :: _ => node.1

theorem Chain.first (chain : Chain link p nodes) : p = first nodes := by
  cases nodes with
  | nil => exact chain
  | cons node rest => exact chain.1

theorem Chain.congr (chain : Chain link p nodes) (same : ∀ a ∈ addrs nodes, link' a = link a) : Chain link' p nodes := by
  induction nodes generalizing p with
  | nil => exact chain
  | cons node rest ih =>
    obtain ⟨isP,some,next,here,chain⟩ := chain
    refine ⟨isP,some,next,?_,ih chain fun a isIn => same a (by simp [isIn])⟩
    rw [same node.1 (by simp),here]

/-- Nodes that are put in the place of the end of a list. -/
theorem Chain.graft {zs : List (Nat × δ)} (chain : Chain link p (xs ++ ys)) (same : ∀ a ∈ addrs xs, link' a = link a)
    (replaced : ∀ q, Chain link q ys → Chain link' q zs) : Chain link' p (xs ++ zs) := by
  induction xs generalizing p with
  | nil => exact replaced p chain
  | cons node rest ih =>
    obtain ⟨isP,some,next,here,chain⟩ := chain
    refine ⟨isP,some,next,?_,ih chain fun a isIn => same a (by simp [isIn])⟩
    rw [same node.1 (by simp),here]

theorem Chain.tail (chain : Chain link p (xs ++ ys)) : ∃ q, Chain link q ys := by
  induction xs generalizing p with
  | nil => exact ⟨p,chain⟩
  | cons node rest ih =>
    obtain ⟨-,-,next,-,chain⟩ := chain
    exact ih chain

theorem Chain.unique (chain : Chain link p xs) (chain' : Chain link p ys) : xs = ys := by
  induction xs generalizing p ys with
  | nil =>
    cases ys with
    | nil => rfl
    | cons node rest => exact absurd (chain'.1.symm.trans chain) chain'.2.1
  | cons node rest ih =>
    obtain ⟨isP,some,next,here,chain⟩ := chain
    cases ys with
    | nil => exact absurd (isP.symm.trans chain') some
    | cons node' rest' =>
      obtain ⟨isP',-,next',here',chain'⟩ := chain'
      have same : node.1 = node'.1 := isP.symm.trans isP'
      rw [← same,here] at here'
      obtain ⟨data,rfl⟩ : node.2 = node'.2 ∧ next = next' := by simpa using here'
      rw [Prod.ext same data,ih chain chain']

/-- A list that ends has no cycle. -/
theorem Chain.nodup (chain : Chain link p nodes) : (addrs nodes).Nodup := by
  induction nodes generalizing p with
  | nil => exact List.nodup_nil
  | cons node rest ih =>
    have whole := chain
    obtain ⟨isP,some,next,here,chain⟩ := chain
    refine List.nodup_cons.mpr ⟨fun again => ?_,ih chain⟩
    -- the list from the second place on would be as long as the whole
    obtain ⟨other,isIn,same⟩ := mem_addrs.mp again
    obtain ⟨before,after,rfl⟩ := List.append_of_mem isIn
    obtain ⟨q,later⟩ := chain.tail
    have start : q = p := later.1.trans (same.trans isP.symm)
    have long := congrArg List.length (whole.unique (start ▸ later))
    simp at long
    omega

theorem Chain.data {node : Nat × δ} (chain : Chain link p nodes) (isIn : node ∈ nodes) : node.1 ≠ 0 ∧ ∃ next, link node.1 = some (node.2,next) := by
  obtain ⟨before,after,rfl⟩ := List.append_of_mem isIn
  obtain ⟨q,-,some,next,here,-⟩ := chain.tail
  exact ⟨some,next,here⟩

theorem Chain.first_mem (chain : Chain link p nodes) (real : p ≠ 0) : p ∈ addrs nodes := by
  cases nodes with
  | nil => exact absurd chain real
  | cons node rest =>
    rw [chain.1]
    exact List.mem_cons_self

theorem Chain.next_mem {a b : Nat} {d : δ} (chain : Chain link p nodes) (isIn : a ∈ addrs nodes) (here : link a = some (d,b))
    (real : b ≠ 0) : b ∈ addrs nodes := by
  obtain ⟨node,member,rfl⟩ := mem_addrs.mp isIn
  obtain ⟨before,after,rfl⟩ := List.append_of_mem member
  obtain ⟨q,-,-,next,there,rest⟩ := chain.tail
  obtain ⟨-,rfl⟩ := Prod.mk.inj (Option.some.inj (there.symm.trans here))
  rw [addrs_append,addrs_cons]
  exact List.mem_append_right _ (List.mem_cons_of_mem _ (rest.first_mem real))

theorem Chain.last {a : Nat} {d : δ} (chain : Chain link p nodes) (isIn : a ∈ addrs nodes) (ends : link a = some (d,0)) :
    ∃ xs, nodes = xs ++ [(a,d)] := by
  obtain ⟨⟨a',d'⟩,member,same⟩ := mem_addrs.mp isIn
  obtain rfl : a' = a := same
  obtain ⟨before,after,rfl⟩ := List.append_of_mem member
  obtain ⟨q,-,real,next,here,rest⟩ := chain.tail
  obtain ⟨rfl,rfl⟩ : d' = d ∧ next = 0 := by simpa using here.symm.trans ends
  have nothing : after = [] := rest.unique (rfl : Chain link 0 [])
  exact ⟨before,by rw [nothing]⟩

theorem Chain.append_last {a b : Nat} {d e : δ} (chain : Chain link p (xs ++ [(a,d)])) (same : ∀ x ∈ addrs xs, link' x = link x)
    (here : link' a = some (d,b)) (real : b ≠ 0) (new : link' b = some (e,0)) : Chain link' p (xs ++ [(a,d)] ++ [(b,e)]) := by
  rw [List.append_assoc]
  refine chain.graft same fun q chain => ?_
  obtain ⟨isA,some,-⟩ := chain
  exact ⟨isA,some,b,here,rfl,real,0,new,rfl⟩

end Osce.Lib
