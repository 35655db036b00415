import TapeChain.Machine.Tape
import TapeChain.Operand

/-! The machine that programs drive: a pointer, a tape, input that is read byte by byte and output
that only grows. -/
namespace TapeChain

structure Machine where
  address : Int
  tape : Tape
  input : Array UInt8
  position : Nat
  output : Array UInt8
  deriving DecidableEq

/-- What can go wrong in a run. The last two cannot happen to a routine made from a chain. -/
inductive Fault where
  | offTape (address : Int) (size : Nat)
  | noCell (index : Int)
  | strayHalt (address : Int)
  | unknownHelper (number : Nat)
  deriving DecidableEq

/-- Indices are held in 64 bits with a sign. -/
def indexFits (index : Int) : Bool := -9223372036854775808 ≤ index && index ≤ 9223372036854775807

def Fault.message : Fault → String
  | .offTape address size => s!"Pointer {address} is outside the tape [0, {size})"
  | .noCell index =>
      if indexFits index then "bytearray index out of range"
      else "cannot fit 'int' into an index-sized integer"
  | .strayHalt address => toString address
  | .unknownHelper number => s!"name '_loop_{number}' is not defined"

/-- How a run ends: at its last node, at a read that found no more input, or by a fault. -/
inductive Ending where
  | finished
  | exhausted
  | fault (f : Fault)
  deriving DecidableEq

structure Outcome where
  ending : Ending
  machine : Machine
  deriving DecidableEq

/-- The result of a single action. -/
inductive Effect where
  | done (m : Machine)
  | dry (m : Machine)
  | fault (f : Fault) (m : Machine)
  deriving DecidableEq

namespace Machine

/-- Whether the pointer stands on the tape. -/
def onTape (m : Machine) : Bool := 0 ≤ m.address && m.address < m.tape.size

def cell? (m : Machine) : Option UInt8 := m.tape.get? m.address

/-- Moves the pointer and requires it to stand on the tape. -/
def shift (offset : Int) (m : Machine) : Effect :=
  let m := { m with address := m.address + offset }
  if m.onTape then .done m else .fault (.offTape m.address m.tape.size) m

/-- Moves the pointer to the right and requires it not to pass the end. -/
def forward (cells : Nat) (m : Machine) : Effect :=
  let m := { m with address := m.address + cells }
  if m.address < m.tape.size then .done m else .fault (.offTape m.address m.tape.size) m

/-- Moves the pointer to the left and requires it not to pass the start. -/
def back (cells : Nat) (m : Machine) : Effect :=
  let m := { m with address := m.address - cells }
  if 0 ≤ m.address then .done m else .fault (.offTape m.address m.tape.size) m

/-- Stores a byte in the current cell. -/
def store (value : UInt8) (m : Machine) : Effect :=
  match m with
  | ⟨address, tape, input, position, output⟩ =>
    match tape.slot? address with
    | some i => .done ⟨address, tape.put i value, input, position, output⟩
    | none => .fault (.noCell address) ⟨address, tape, input, position, output⟩

/-- Adds to the current cell, modulo 256. -/
def add (delta : UInt8) (m : Machine) : Effect :=
  match m.cell? with
  | some value => m.store (value + delta)
  | none => .fault (.noCell m.address) m

/-- Appends the current cell to the output. -/
def write (m : Machine) : Effect :=
  match m.cell? with
  | some value => .done { m with output := m.output.push value }
  | none => .fault (.noCell m.address) m

/-- Takes one byte of input into the current cell. The byte is taken before the cell is looked up. -/
def read (m : Machine) : Effect :=
  if h : m.position < m.input.size then
    let value := m.input[m.position]
    { m with position := m.position + 1 }.store value
  else .dry m

end Machine

/-- The byte by which an operand changes a cell. -/
def Operand.byte (o : Operand) : UInt8 := UInt8.ofNat (o.value % 256).toNat

/-! ### Counted runs -/

/-- One step either leads to a further state or ends the run. -/
inductive Progress (σ : Type) where
  | more (s : σ)
  | ended (o : Outcome)

/-- Steps until the run ends; `none` when `fuel` steps do not suffice. -/
def runFor {σ : Type} (step : σ → Progress σ) : Nat → σ → Option Outcome
  | 0, _ => none
  | fuel + 1, s =>
    match step s with
    | .more s => runFor step fuel s
    | .ended o => some o

end TapeChain
