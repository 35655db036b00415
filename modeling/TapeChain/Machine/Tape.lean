/-! The tape: a row of byte cells. An index from the end, `-n` to `-1` on a tape of `n` cells, names
a cell too; any other index outside the row names none. -/
namespace TapeChain

structure Tape where
  cells : Array UInt8
  deriving DecidableEq

namespace Tape

def size (t : Tape) : Nat := t.cells.size

def blank (size : Nat) : Tape := ⟨Array.replicate size 0⟩

/-- The cell that an index names. -/
def slot? (t : Tape) (index : Int) : Option (Fin t.cells.size) :=
  let i := if 0 ≤ index then index else index + t.cells.size
  if h : 0 ≤ i ∧ i.toNat < t.cells.size then some ⟨i.toNat, h.2⟩ else none

def get? (t : Tape) (index : Int) : Option UInt8 := (t.slot? index).map fun i => t.cells[i]

def put (t : Tape) (i : Fin t.cells.size) (value : UInt8) : Tape :=
  ⟨t.cells.set i.val value i.isLt⟩

def set? (t : Tape) (index : Int) (value : UInt8) : Option Tape :=
  match t.slot? index with
  | some i => some (t.put i value)
  | none => none

/-- Cuts the tape or extends it with zeros. -/
def resize (t : Tape) (size : Nat) : Tape :=
  ⟨t.cells.take size ++ Array.replicate (size - t.cells.size) 0⟩

/-- Every cell set to zero. -/
def clear (t : Tape) : Tape := blank t.size

/-- The cells that are not zero, with their indices. -/
def marks (t : Tape) : List (Nat × UInt8) :=
  (t.cells.toList.zipIdx.filter fun p => p.1 ≠ 0).map fun p => (p.2, p.1)

end Tape

end TapeChain
