/-! The tokens of program text, and the steps that merge: neighbouring steps of the pointer make one
move, neighbouring steps of the data one addition, also when they cancel out. -/
namespace TapeChain

inductive Token where
  | move (offset : Int)
  | add (delta : Int)
  | output
  | input
  | opening
  | closing
  deriving DecidableEq

/-- What a run of steps works on. -/
inductive Axis where
  | pointer
  | data
  deriving DecidableEq

namespace Axis

def up : Axis → Char
  | .pointer => '>'
  | .data => '+'

def down : Axis → Char
  | .pointer => '<'
  | .data => '-'

def has (a : Axis) (c : Char) : Bool := c = a.up || c = a.down

def step (a : Axis) (c : Char) : Int := if c = a.up then 1 else -1

/-- The axis of a step. -/
def ofChar? (c : Char) : Option Axis :=
  if pointer.has c then some .pointer else if data.has c then some .data else none

end Axis

end TapeChain
