import TapeChain.Chain.Basic
import TapeChain.Machine.Basic

/-! Walking a chain node by node. Entered loops are kept on an explicit stack, so that nesting is
no recursion. -/
namespace TapeChain

/-- An entered loop: its body, and what follows it. -/
structure Entered where
  body : Chain
  next : Chain

structure Walk where
  node : Chain
  loops : List Entered
  machine : Machine

namespace Walk

/-- Goes on at `next` after an action. -/
def proceed (next : Chain) (loops : List Entered) : Effect → Progress Walk
  | .done m => .more ⟨next, loops, m⟩
  | .dry m => .ended ⟨.exhausted, m⟩
  | .fault f m => .ended ⟨.fault f, m⟩

/-- One node. At the end of a loop's body the current cell is tested again. -/
def step : Walk → Progress Walk
  | ⟨.stop, [], m⟩ => .ended ⟨.finished, m⟩
  | ⟨.stop, loop :: outer, m⟩ =>
    match m.cell? with
    | none => .ended ⟨.fault (.noCell m.address), m⟩
    | some value =>
      if value = 0 then .more ⟨loop.next, outer, m⟩ else .more ⟨loop.body, loop :: outer, m⟩
  | ⟨.loop body next, loops, m⟩ =>
    match m.cell? with
    | none => .ended ⟨.fault (.noCell m.address), m⟩
    | some value =>
      if value = 0 then .more ⟨next, loops, m⟩ else .more ⟨body, ⟨body, next⟩ :: loops, m⟩
  | ⟨.move offset next, loops, m⟩ => proceed next loops (m.shift offset.value)
  | ⟨.add delta next, loops, m⟩ => proceed next loops (m.add delta.byte)
  | ⟨.output next, loops, m⟩ => proceed next loops m.write
  | ⟨.input next, loops, m⟩ => proceed next loops m.read

end Walk

/-- Walks a chain with no loop entered yet. -/
def Chain.walk (fuel : Nat) (c : Chain) (m : Machine) : Option Outcome :=
  runFor Walk.step fuel ⟨c, [], m⟩

/-- What is kept from walk to walk: the loops that were still entered where the last one ended. -/
structure Interpreter where
  loops : List Entered

namespace Interpreter

def fresh : Interpreter := ⟨[]⟩

/-- Goes on until the walk ends. Loops that are entered then are not left. -/
def resume : Nat → Walk → Option Outcome × Interpreter
  | 0, w => (none, ⟨w.loops⟩)
  | fuel + 1, w =>
    match w.step with
    | .more w => resume fuel w
    | .ended o => (some o, ⟨w.loops⟩)

/-- Walks a chain. What an earlier walk has left behind is dropped first. -/
def walk (fuel : Nat) (i : Interpreter) (c : Chain) (m : Machine) : Option Outcome × Interpreter :=
  let i := { i with loops := [] }
  resume fuel ⟨c, i.loops, m⟩

end Interpreter

end TapeChain
