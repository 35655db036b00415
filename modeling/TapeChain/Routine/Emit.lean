import TapeChain.Chain.Linked
import TapeChain.Chain.Measure
import TapeChain.Config
import TapeChain.Routine.Code

/-! Specialising a chain into a routine. Loops nest as statements up to a budget; a loop beyond it
becomes a helper, one helper for each node. A helper is numbered when it is first met and defined
once its body is complete. -/
namespace TapeChain

/-- The helpers so far: the number of each hoisted node, and the finished definitions, the latest
first. -/
structure Hoisted where
  numbers : Std.HashMap Nat Nat
  defined : List Helper

namespace Hoisted

def empty : Hoisted := ⟨∅, []⟩

end Hoisted

/-- A checked move; a move by nothing leaves no statement. -/
def Code.move (offset : Int) (rest : Code) : Code :=
  if 0 < offset then .forward offset.toNat rest
  else if offset < 0 then .back (-offset).toNat rest
  else rest

/-- An addition; one that changes nothing leaves no statement. -/
def Code.bump (delta : UInt8) (rest : Code) : Code :=
  if delta = 0 then rest else .add delta rest

namespace Linked

/-- The statements of a chain that stands inside `depth` loops of its routine. -/
def emit (budget : Nat) (depth : Nat) (exit : DryExit) (hoisted : Hoisted) :
    Linked → Code × Hoisted
  | .stop _ => (.done, hoisted)
  | .move _ offset next =>
    let (rest, hoisted) := next.emit budget depth exit hoisted
    (.move offset.value rest, hoisted)
  | .add _ delta next =>
    let (rest, hoisted) := next.emit budget depth exit hoisted
    (.bump delta.byte rest, hoisted)
  | .output _ next =>
    let (rest, hoisted) := next.emit budget depth exit hoisted
    (.write rest, hoisted)
  | .input _ next =>
    let (rest, hoisted) := next.emit budget depth exit hoisted
    (.read exit rest, hoisted)
  | .loop tag body next =>
    if depth < budget then
      let (inner, hoisted) := body.emit budget (depth + 1) exit hoisted
      let (rest, hoisted) := next.emit budget depth exit hoisted
      (.loop inner rest, hoisted)
    else
      match hoisted.numbers[tag]? with
      | some number =>
        let (rest, hoisted) := next.emit budget depth exit hoisted
        (.call number rest, hoisted)
      | none =>
        let number := hoisted.numbers.size
        let named := { hoisted with numbers := hoisted.numbers.insert tag number }
        let (inner, hoisted) := body.emit budget 1 .signal named
        let hoisted := { hoisted with defined := ⟨number, inner⟩ :: hoisted.defined }
        let (rest, hoisted) := next.emit budget depth exit hoisted
        (.call number rest, hoisted)

/-- Whether some loop nests too deep for a single routine. -/
def needsHelpers (l : Linked) (config : Config) : Bool := config.inlineDepth < l.chain.depth

/-- The routine of a chain. With helpers, the guard around the main routine takes one level of the
budget. -/
def routine (l : Linked) (config : Config) : Routine :=
  let guarded := l.needsHelpers config
  let budget := if guarded then config.inlineDepth - 1 else config.inlineDepth
  let (body, hoisted) := l.emit budget 0 .leave .empty
  { helpers := hoisted.defined.reverse, guarded, body }

end Linked

end TapeChain
