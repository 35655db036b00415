import Mathlib.Data.List.Lex
import TapeChain.Artifact.Term

/-! Subterms by position, and the order in which terms are visited. A position is the list of the
argument numbers on the way from the root. Subterms are visited in the reverse of a breadth-first
traversal that goes through arguments from right to left: deeper positions before shallower ones, and
positions of one depth from left to right. -/
namespace TapeChain

def Args.toList : Args → List Term
  | .nil => []
  | .cons t rest => t :: rest.toList

namespace Term

def args : Term → List Term
  | .leaf _ => []
  | .literal _ => []
  | .node _ args => args.toList

/-- The subterm at a position. -/
def at? (t : Term) : List Nat → Option Term
  | [] => some t
  | i :: p => t.args[i]?.bind fun a => a.at? p

theorem at?_append (t : Term) (p q : List Nat) : t.at? (p ++ q) = (t.at? p).bind (·.at? q) := by
  induction p generalizing t with
  | nil => rfl
  | cons i p ih =>
      rw [List.cons_append, at?, at?, Option.bind_assoc]
      exact congrArg _ (funext ih)

end Term

/-! ### The order of positions -/

/-- The first position is visited before the second one: it is deeper, or as deep and to the left. -/
def Sooner (p q : List Nat) : Prop := q.length < p.length ∨ p.length = q.length ∧ p < q

namespace Sooner

variable {p q r : List Nat}

theorem trans (h : Sooner p q) (h' : Sooner q r) : Sooner p r := by
  rcases h with deeper | ⟨level, left⟩
  · rcases h' with deeper' | ⟨level', -⟩
    · exact .inl (by omega)
    · exact .inl (by omega)
  · rcases h' with deeper' | ⟨level', left'⟩
    · exact .inl (by omega)
    · exact .inr ⟨level.trans level', lt_trans left left'⟩

theorem irrefl (p : List Nat) : ¬ Sooner p p := by
  rintro (deeper | ⟨-, left⟩)
  · exact Nat.lt_irrefl _ deeper
  · exact lt_irrefl p left

/-- What is inside a term is visited before the term. -/
theorem inside (p : List Nat) (proper : q ≠ []) : Sooner (p ++ q) p := by
  have := List.length_pos_of_ne_nil proper
  exact .inl (by rw [List.length_append]; omega)

theorem cons (h : Sooner p q) (i : Nat) : Sooner (i :: p) (i :: q) := by
  rcases h with deeper | ⟨level, left⟩
  · exact .inl (Nat.succ_lt_succ deeper)
  · exact .inr ⟨congrArg Nat.succ level, List.cons_lt_cons_iff.mpr (.inr ⟨rfl, left⟩)⟩

theorem lt_concat {p q : List Nat} (level : p.length = q.length) (left : p < q) (i j : Nat) :
    p ++ [i] < q ++ [j] := by
  induction p generalizing q with
  | nil =>
      rw [List.length_eq_zero_iff.mp level.symm] at left
      exact absurd left (lt_irrefl _)
  | cons a p ih =>
      cases q with
      | nil => cases level
      | cons b q =>
          rw [List.cons_append, List.cons_append, List.cons_lt_cons_iff]
          rcases List.cons_lt_cons_iff.mp left with less | ⟨same, left⟩
          · exact .inl less
          · exact .inr ⟨same, ih (Nat.succ.inj level) left⟩

theorem concat (h : Sooner p q) (i j : Nat) : Sooner (p ++ [i]) (q ++ [j]) := by
  rcases h with deeper | ⟨level, left⟩
  · exact .inl (by simpa using deeper)
  · exact .inr ⟨by simpa using level, lt_concat level left i j⟩

end Sooner

/-! ### Breadth first -/

/-- A subterm and its position. -/
abbrev Placed := List Nat × Term

mutual

def Term.nodes : Term → Nat
  | .leaf _ => 1
  | .literal _ => 1
  | .node _ args => args.nodes + 1

def Args.nodes : Args → Nat
  | .nil => 0
  | .cons t rest => t.nodes + rest.nodes

end

namespace Placed

/-- The arguments of a subterm, from left to right. -/
def children (x : Placed) : List Placed := x.2.args.zipIdx.map fun a => (x.1 ++ [a.2], a.1)

/-- The number of subterms that are still to come. -/
def pending : List Placed → Nat
  | [] => 0
  | x :: queue => x.2.nodes + pending queue

theorem pending_append (xs ys : List Placed) : pending (xs ++ ys) = pending xs + pending ys := by
  induction xs with
  | nil => simp only [List.nil_append, pending, Nat.zero_add]
  | cons x xs ih => simp only [List.cons_append, pending, ih, Nat.add_assoc]

theorem pending_reverse (xs : List Placed) : pending xs.reverse = pending xs := by
  induction xs with
  | nil => rfl
  | cons x xs ih =>
      rw [List.reverse_cons, pending_append, ih]
      simp only [pending]
      omega

theorem pending_args (args : Args) (p : List Nat) (n : Nat) :
    pending ((args.toList.zipIdx n).map fun a => (p ++ [a.2], a.1)) = args.nodes := by
  match args with
  | .nil => rfl
  | .cons t rest =>
      simp only [Args.toList, List.zipIdx_cons, List.map_cons, pending, Args.nodes,
        pending_args rest p (n + 1)]

theorem pending_children (x : Placed) : pending x.children < x.2.nodes := by
  obtain ⟨p, t⟩ := x
  cases t with
  | leaf name => exact Nat.zero_lt_one
  | literal text => exact Nat.zero_lt_one
  | node name args => exact Nat.lt_succ_of_le (Nat.le_of_eq (pending_args args p 0))

/-- The subterms in the queue and all below them: each is followed by what was in the queue before,
and then by its arguments from right to left. -/
def breadthFirst : List Placed → List Placed
  | [] => []
  | x :: queue => x :: breadthFirst (queue ++ x.children.reverse)
termination_by queue => pending queue
decreasing_by
  rw [pending_append, pending_reverse, pending]
  have := pending_children x
  omega

theorem mem_children {x y : Placed} :
    y ∈ x.children ↔ ∃ i, y.1 = x.1 ++ [i] ∧ x.2.args[i]? = some y.2 := by
  simp only [children, List.mem_map, Prod.exists, List.mem_zipIdx_iff_getElem?]
  constructor
  · rintro ⟨a, i, found, rfl⟩
    exact ⟨i, rfl, found⟩
  · rintro ⟨i, place, found⟩
    exact ⟨y.2, i, found, Prod.ext place.symm rfl⟩

/-- The traversal meets the queue and what is inside it, and nothing else. -/
theorem mem_breadthFirst {queue : List Placed} {y : Placed} : y ∈ breadthFirst queue ↔
    ∃ x ∈ queue, ∃ p, y.1 = x.1 ++ p ∧ x.2.at? p = some y.2 := by
  fun_induction breadthFirst queue with
  | case1 => simp only [List.not_mem_nil, false_and, exists_false]
  | case2 x queue ih =>
      rw [List.mem_cons, ih]
      constructor
      · rintro (rfl | ⟨z, mem, p, place, found⟩)
        · exact ⟨y, List.mem_cons_self, [], (List.append_nil _).symm, rfl⟩
        · rcases List.mem_append.mp mem with mem | mem
          · exact ⟨z, List.mem_cons_of_mem _ mem, p, place, found⟩
          · obtain ⟨i, above, arg⟩ := mem_children.mp (List.mem_reverse.mp mem)
            refine ⟨x, List.mem_cons_self, i :: p, ?_, ?_⟩
            · rw [place, above, List.append_assoc, List.singleton_append]
            · rw [Term.at?, arg, Option.bind_some, found]
      · rintro ⟨z, mem, p, place, found⟩
        rcases List.mem_cons.mp mem with rfl | mem
        · cases p with
          | nil => exact .inl (Prod.ext (place.trans (List.append_nil _)) (Option.some.inj found).symm)
          | cons i p =>
              obtain ⟨a, arg, found⟩ := Option.bind_eq_some_iff.mp found
              refine .inr ⟨(z.1 ++ [i], a), ?_, p, ?_, found⟩
              · exact List.mem_append_right _ (List.mem_reverse.mpr (mem_children.mpr ⟨i, rfl, arg⟩))
              · rw [place, List.append_assoc, List.singleton_append]
        · exact .inr ⟨z, List.mem_append_left _ mem, p, place, found⟩

/-- A queue in the middle of the traversal. What is in it comes before all that is inside it, whatever
it is inside of. -/
structure Queued (queue : List Placed) : Prop where
  sorted : queue.Pairwise fun x y => Sooner y.1 x.1
  ahead : ∀ x ∈ queue, ∀ y ∈ queue, ∀ i, Sooner (y.1 ++ [i]) x.1

theorem children_sorted (x : Placed) : x.children.Pairwise fun y z => Sooner y.1 z.1 := by
  have indices : (x.2.args.zipIdx.map Prod.snd).Pairwise (· < ·) := by
    rw [List.zipIdx_map_snd]
    exact List.pairwise_lt_range'
  rw [List.pairwise_map] at indices
  rw [children, List.pairwise_map]
  refine indices.imp ?_
  intro a b less
  have left : [a.2] < [b.2] := List.cons_lt_cons_iff.mpr (.inl less)
  exact .inr ⟨by simp only [List.length_append, List.length_singleton], List.append_left_lt left⟩

theorem Queued.next {x : Placed} {queue : List Placed} (h : Queued (x :: queue)) :
    Queued (queue ++ x.children.reverse) := by
  obtain ⟨first, rest⟩ := List.pairwise_cons.mp h.sorted
  have older {y : Placed} (mem : y ∈ queue) : y ∈ x :: queue := List.mem_cons_of_mem _ mem
  have child {y : Placed} (mem : y ∈ x.children.reverse) : ∃ i, y.1 = x.1 ++ [i] := by
    obtain ⟨i, place, -⟩ := mem_children.mp (List.mem_reverse.mp mem)
    exact ⟨i, place⟩
  constructor
  case sorted =>
    refine List.pairwise_append.mpr ⟨rest, List.pairwise_reverse.mpr x.children_sorted, ?_⟩
    intro y mem z new
    obtain ⟨i, place⟩ := child new
    rw [place]
    exact h.ahead y (older mem) x List.mem_cons_self i
  case ahead =>
    intro y mem z mem' i
    rcases List.mem_append.mp mem with old | new
    · rcases List.mem_append.mp mem' with old' | new'
      · exact h.ahead y (older old) z (older old') i
      · obtain ⟨k, place⟩ := child new'
        have above := h.ahead y (older old) x List.mem_cons_self k
        rw [← place] at above
        exact (Sooner.inside z.1 (List.cons_ne_nil i [])).trans above
    · obtain ⟨k, place⟩ := child new
      rw [place]
      rcases List.mem_append.mp mem' with old' | new'
      · exact (first z old').concat i k
      · obtain ⟨k', place'⟩ := child new'
        rw [place']
        refine .inl ?_
        simp only [List.length_append, List.length_singleton]
        omega

/-- In the traversal of a queue nothing comes too late. -/
theorem Queued.traversed {queue : List Placed} (h : Queued queue) :
    (breadthFirst queue).Pairwise fun x y => Sooner y.1 x.1 := by
  fun_induction breadthFirst queue with
  | case1 => exact .nil
  | case2 x queue ih =>
      refine List.pairwise_cons.mpr ⟨?_, ih h.next⟩
      intro y mem
      obtain ⟨z, queued, p, place, -⟩ := mem_breadthFirst.mp mem
      have above : Sooner z.1 x.1 := by
        rcases List.mem_append.mp queued with old | new
        · exact (List.pairwise_cons.mp h.sorted).1 z old
        · obtain ⟨i, place, -⟩ := mem_children.mp (List.mem_reverse.mp new)
          rw [place]
          exact Sooner.inside _ (List.cons_ne_nil _ _)
      rw [place]
      cases p with
      | nil => rwa [List.append_nil]
      | cons i p => exact (Sooner.inside z.1 (List.cons_ne_nil i p)).trans above

end Placed

namespace Term

/-- The order in which the subterms of a term are visited. -/
def order (t : Term) : List Placed := (Placed.breadthFirst [([], t)]).reverse

theorem mem_order {t : Term} {x : Placed} : x ∈ t.order ↔ t.at? x.1 = some x.2 := by
  rw [order, List.mem_reverse, Placed.mem_breadthFirst]
  constructor
  · rintro ⟨y, root, p, place, found⟩
    cases List.mem_singleton.mp root
    rw [place, List.nil_append, found]
  · intro found
    exact ⟨([], t), List.mem_singleton.mpr rfl, x.1, rfl, found⟩

theorem order_sorted (t : Term) : t.order.Pairwise fun x y => Sooner x.1 y.1 := by
  have alone : Placed.Queued [([], t)] := by
    refine ⟨List.pairwise_singleton _ _, ?_⟩
    intro x mem y mem' i
    rw [List.mem_singleton.mp mem, List.mem_singleton.mp mem']
    exact Sooner.inside [] (List.cons_ne_nil i [])
  rw [order, List.pairwise_reverse]
  exact alone.traversed

end Term

end TapeChain
