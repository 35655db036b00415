import TapeChain.Chain.Basic

/-! The size and the depth of a chain, computed with a list of chains still to be visited, so that
neither the length nor the nesting of a chain costs stack. -/
namespace TapeChain.Chain

/-- The nodes still to be visited. -/
def pendingNodes : List Chain → Nat
  | [] => 0
  | c :: pending => c.nodes + pendingNodes pending

/-- Adds to `count` one for every node that is not a `stop` and two for every loop, whose body has a
`stop` of its own. -/
def countPending : List Chain → Nat → Nat
  | [], count => count
  | .stop :: pending, count => countPending pending count
  | .loop body next :: pending, count => countPending (next :: body :: pending) (count + 2)
  | .move _ next :: pending, count => countPending (next :: pending) (count + 1)
  | .add _ next :: pending, count => countPending (next :: pending) (count + 1)
  | .output next :: pending, count => countPending (next :: pending) (count + 1)
  | .input next :: pending, count => countPending (next :: pending) (count + 1)
termination_by pending => pendingNodes pending
decreasing_by all_goals simp only [pendingNodes, nodes]; omega

/-- The number of nodes of a chain, loop bodies included. -/
def length (c : Chain) : Nat := countPending [c] 1

/-- The greatest depth reached, starting from chains that stand at known depths. -/
def deepestPending : List (Chain × Nat) → Nat → Nat
  | [], deepest => deepest
  | (.stop, depth) :: pending, deepest => deepestPending pending (max deepest depth)
  | (.loop body next, depth) :: pending, deepest =>
    deepestPending ((next, depth) :: (body, depth + 1) :: pending) deepest
  | (.move _ next, depth) :: pending, deepest => deepestPending ((next, depth) :: pending) deepest
  | (.add _ next, depth) :: pending, deepest => deepestPending ((next, depth) :: pending) deepest
  | (.output next, depth) :: pending, deepest => deepestPending ((next, depth) :: pending) deepest
  | (.input next, depth) :: pending, deepest => deepestPending ((next, depth) :: pending) deepest
termination_by pending => pendingNodes (pending.map Prod.fst)
decreasing_by all_goals simp only [pendingNodes, nodes, List.map_cons]; omega

/-- How deep loops nest in a chain; zero when there is none. -/
def depth (c : Chain) : Nat := deepestPending [(c, 0)] 0

end TapeChain.Chain
