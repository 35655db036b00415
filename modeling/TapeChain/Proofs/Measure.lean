import TapeChain.Chain.Measure

/-! The measures that are computed with a list of pending chains are the structural ones. -/
namespace TapeChain.Chain

/-- The greatest depth that chains at known depths reach. -/
def reach : List (Chain × Nat) → Nat
  | [] => 0
  | (c, depth) :: pending => max (depth + c.nesting) (reach pending)

theorem deepestPending_eq (pending : List (Chain × Nat)) (deepest : Nat) :
    deepestPending pending deepest = max deepest (reach pending) := by
  fun_induction deepestPending pending deepest with
  | case1 deepest => simp only [reach, Nat.max_zero]
  | case2 deepest depth pending ih =>
      rw [ih, reach, nesting, Nat.add_zero, Nat.max_assoc]
  | case3 deepest body next depth pending ih =>
      rw [ih]
      simp only [reach, nesting]
      omega
  | case4 deepest offset next depth pending ih => rw [ih]; rfl
  | case5 deepest delta next depth pending ih => rw [ih]; rfl
  | case6 deepest next depth pending ih => rw [ih]; rfl
  | case7 deepest next depth pending ih => rw [ih]; rfl

theorem depth_eq_nesting (c : Chain) : c.depth = c.nesting := by
  rw [depth, deepestPending_eq]
  simp only [reach, Nat.zero_add, Nat.max_zero, Nat.zero_max]

/-- The `stop` at the end of a pending chain was counted when the chain was put there, so each adds
one less than its nodes. -/
theorem countPending_add_length (pending : List Chain) (count : Nat) :
    countPending pending count + pending.length = count + pendingNodes pending := by
  fun_induction countPending pending count with
  | case1 count => rfl
  | case2 count pending ih =>
      simp only [List.length_cons, pendingNodes, nodes]
      omega
  | case3 count body next pending ih =>
      simp only [List.length_cons, pendingNodes, nodes] at ih ⊢
      omega
  | case4 count offset next pending ih | case5 count delta next pending ih
  | case6 count next pending ih | case7 count next pending ih =>
      simp only [List.length_cons, pendingNodes, nodes] at ih ⊢
      omega

theorem length_eq_nodes (c : Chain) : c.length = c.nodes := by
  have counted := countPending_add_length [c] 1
  simp only [List.length_singleton, pendingNodes] at counted
  rw [length]
  omega

end TapeChain.Chain
