import TapeChain.Operand

/-! Chains. Each node holds its own operand and the whole rest of the program; `stop` closes every
chain, and at the end of a loop's body it means "back to the loop". -/
namespace TapeChain

inductive Chain where
  | stop
  | loop (body next : Chain)
  | move (offset : Operand) (next : Chain)
  | add (delta : Operand) (next : Chain)
  | output (next : Chain)
  | input (next : Chain)
  deriving DecidableEq

namespace Chain

/-- The symbol that names the first node. -/
def head : Chain → String
  | .stop => "Stop"
  | .loop _ _ => "Loop"
  | .move _ _ => "AddPointer"
  | .add _ _ => "AddData"
  | .output _ => "OutputData"
  | .input _ => "InputData"

/-- The symbols along the spine, without the closing one. -/
def spine : Chain → List String
  | .stop => []
  | c@(.loop _ next) => c.head :: next.spine
  | c@(.move _ next) => c.head :: next.spine
  | c@(.add _ next) => c.head :: next.spine
  | c@(.output next) => c.head :: next.spine
  | c@(.input next) => c.head :: next.spine

/-- The number of nodes, each occurrence counted, every `stop` included. -/
def nodes : Chain → Nat
  | .stop => 1
  | .loop body next => body.nodes + next.nodes + 1
  | .move _ next => next.nodes + 1
  | .add _ next => next.nodes + 1
  | .output next => next.nodes + 1
  | .input next => next.nodes + 1

/-- How deep loops nest. -/
def nesting : Chain → Nat
  | .stop => 0
  | .loop body next => max (body.nesting + 1) next.nesting
  | .move _ next => next.nesting
  | .add _ next => next.nesting
  | .output next => next.nesting
  | .input next => next.nesting

end Chain

end TapeChain
