import TapeChain.Executable
import TapeChain.Text.Utf8

/-! Sessions: several programs that share one tape, one pair of streams and one interpreter. A
program's entry point is made when it is first needed and used again by every later run. -/
namespace TapeChain

/-- An executable and its entry point, once that is made. -/
structure Prepared where
  executable : Executable
  entry : Option Entry

namespace Prepared

def ofExecutable (x : Executable) : Prepared := ⟨x, none⟩

def isBound (p : Prepared) : Bool := p.entry.isSome

/-- The entry point, made now unless it was made before. -/
def bind (p : Prepared) : Entry × Prepared :=
  match p.entry with
  | some e => (e, p)
  | none => (p.executable.entry, ⟨p.executable, some p.executable.entry⟩)

end Prepared

/-- One request. Programs are named by their place in the session. -/
inductive Request where
  | run (program : Nat)
  | enter (program : Nat) (address : Int)
  | walk (program : Nat) (address : Int)
  | walkOnly (program : Nat) (address : Int)
  | isBound (program : Nat)
  | reset
  | flush
  | read (count : Int)
  | write (bytes : Bytes)
  | feed (bytes : Bytes)
  | poke (index value : Int)
  | resize (size : Nat)

inductive SessionFault where
  | emptyTape
  | run (f : Fault)
  | notAByte
  | noProgram (program : Nat)
  | unfinished

def SessionFault.message : SessionFault → String
  | .emptyTape => EmptyTape.message ⟨⟩
  | .run f => f.message
  | .notAByte => "byte must be in range(0, 256)"
  | .noProgram _ => "list index out of range"
  | .unfinished => "out of steps"

inductive Reply where
  | done
  | arrived (address : Int)
  | walked (address : Int) (halted : Bool)
  | isBound (answer : Bool)
  | data (bytes : Bytes)
  | count (bytes : Nat)
  | refused (fault : SessionFault)

/-- The machine's pointer is set anew by every run; between requests it has no meaning and is 0. -/
structure Session where
  programs : Array Prepared
  interpreter : Interpreter
  machine : Machine

namespace Machine

/-- Goes back to the start of the input and drops the output. -/
def rewind (m : Machine) : Machine := { m with position := 0, output := #[] }

/-- Takes up to `count` bytes of input, all that is left if `count` is negative. -/
def take (count : Int) (m : Machine) : Bytes × Machine :=
  let rest := m.input.size - m.position
  let taken := if count < 0 then rest else min count.toNat rest
  (m.input.extract m.position (m.position + taken), { m with position := m.position + taken })

def emit (bytes : Bytes) (m : Machine) : Machine := { m with output := m.output ++ bytes }

def feed (bytes : Bytes) (m : Machine) : Machine := { m with input := m.input ++ bytes }

def resize (size : Nat) (m : Machine) : Machine := { m with tape := m.tape.resize size }

/-- Sets a cell. An index beyond every index is refused first, then a value that is no byte. -/
def poke (index value : Int) (m : Machine) : Except SessionFault Machine :=
  if indexFits index then
    if 0 ≤ value ∧ value < 256 then
      match m.tape.set? index (UInt8.ofNat value.toNat) with
      | some tape => .ok { m with tape }
      | none => .error (.run (.noCell index))
    else .error .notAByte
  else .error (.run (.noCell index))

end Machine

namespace Session

def start (programs : List Executable) (m : Machine) : Session :=
  ⟨(programs.map Prepared.ofExecutable).toArray, .fresh, { m with address := 0 }⟩

/-- The reply to a run and the session after it. The machine keeps what a faulty run did to it. -/
def conclude (s : Session) (reply : Outcome → Reply) : Option Outcome → Reply × Session
  | none => (.refused .unfinished, s)
  | some o =>
    let s := { s with machine := { o.machine with address := 0 } }
    match o.ending with
    | .fault f => (.refused (.run f), s)
    | _ => (reply o, s)

def arrival (o : Outcome) : Reply := .arrived o.machine.address

def walkEnd (o : Outcome) : Reply := .walked o.machine.address (o.ending = .exhausted)

/-- Binds a program and runs it from `address` on. -/
def enter (fuel : Nat) (s : Session) (program : Nat) (p : Prepared) (address : Int) :
    Reply × Session :=
  let (entry, bound) := p.bind
  let s := { s with programs := s.programs.setIfInBounds program bound }
  s.conclude arrival (entry.start fuel { s.machine with address })

/-- Runs a chain from `address` on by walking it; no entry point is needed. -/
def walk (fuel : Nat) (s : Session) (p : Prepared) (address : Int) (reply : Outcome → Reply) :
    Reply × Session :=
  let (outcome, interpreter) :=
    s.interpreter.walk fuel p.executable.chain { s.machine with address }
  { s with interpreter }.conclude reply outcome

def withProgram (s : Session) (program : Nat) (use : Prepared → Reply × Session) :
    Reply × Session :=
  match s.programs[program]? with
  | some p => use p
  | none => (.refused (.noProgram program), s)

/-- Answers one request. A refused request leaves the session usable. -/
def step (fuel : Nat) (s : Session) : Request → Reply × Session
  | .run program => s.withProgram program fun p =>
      if s.machine.tape.size = 0 then (.refused .emptyTape, s) else s.enter fuel program p 0
  | .enter program address => s.withProgram program fun p => s.enter fuel program p address
  | .walk program address => s.withProgram program fun p => s.walk fuel p address walkEnd
  | .walkOnly program address => s.withProgram program fun p => s.walk fuel p address arrival
  | .isBound program => s.withProgram program fun p => (.isBound p.isBound, s)
  | .reset => (.done, { s with machine := s.machine.rewind })
  | .flush => (.done, s)
  | .read count =>
    let (bytes, machine) := s.machine.take count
    (.data bytes, { s with machine })
  | .write bytes => (.count bytes.size, { s with machine := s.machine.emit bytes })
  | .feed bytes => (.done, { s with machine := s.machine.feed bytes })
  | .poke index value =>
    match s.machine.poke index value with
    | .ok machine => (.done, { s with machine })
    | .error fault => (.refused fault, s)
  | .resize size => (.done, { s with machine := s.machine.resize size })

/-- Answers requests in order; each reply comes with the session after it. -/
def replay (fuel : Nat) : Session → List Request → List (Reply × Session)
  | _, [] => []
  | s, r :: rest =>
    let answered := s.step fuel r
    answered :: replay fuel answered.2 rest

end Session

end TapeChain
