import TapeChain.Routine.Code

/-! The text of a routine, with four spaces for each level of nesting. -/
namespace TapeChain

/-- A line of text and its level of indentation. -/
structure Line where
  level : Nat
  text : String
  deriving DecidableEq

def Line.render (l : Line) : String := String.join (List.replicate l.level "    ") ++ l.text

/-- What stands before and behind the number in a line. -/
structure Around where
  before : String
  behind : String
  deriving DecidableEq

def Around.text (a : Around) (number : Nat) : String := a.before ++ toString number ++ a.behind

/-! ### What the lines say -/

namespace Phrase

def pass : String := "pass"
def forward : Around := ⟨"address += ", ""⟩
def back : Around := ⟨"address -= ", ""⟩
def pastEnd : String := "if address >= size:"
def beforeStart : String := "if address < 0:"
def refuse : String := "raise TapeFault(address, size)"
def add : Around := ⟨"memory[address] = (memory[address] + ", ") & 255"⟩
def write : String := "write(_BYTES[memory[address]])"
def read : String := "data = read(1)"
def dry : String := "if not data:"
def store : String := "memory[address] = data[0]"
def loop : String := "while memory[address]:"
def call : Around := ⟨"address = _loop_", "(address, memory, read, write, size)"⟩
def helper : Around := ⟨"def _loop_", "(address, memory, read, write, size):"⟩
def run : String := "def run(address, memory, input, output):"
def leave : String := "return address"
def signal : String := "raise _Halt(address)"
def guard : String := "try:"
def caught : String := "except _Halt as halt:"
def leaveCaught : String := "return halt.address"

end Phrase

/-- Every block has a line. -/
def blockOf (level : Nat) : List Line → List Line
  | [] => [⟨level, Phrase.pass⟩]
  | lines => lines

namespace DryExit

def text : DryExit → String
  | .leave => Phrase.leave
  | .signal => Phrase.signal

end DryExit

namespace Code

def lines (level : Nat) : Code → List Line
  | .done => []
  | .forward cells rest =>
    ⟨level, Phrase.forward.text cells⟩ :: ⟨level, Phrase.pastEnd⟩ ::
      ⟨level + 1, Phrase.refuse⟩ :: rest.lines level
  | .back cells rest =>
    ⟨level, Phrase.back.text cells⟩ :: ⟨level, Phrase.beforeStart⟩ ::
      ⟨level + 1, Phrase.refuse⟩ :: rest.lines level
  | .add delta rest => ⟨level, Phrase.add.text delta.toNat⟩ :: rest.lines level
  | .write rest => ⟨level, Phrase.write⟩ :: rest.lines level
  | .read exit rest =>
    ⟨level, Phrase.read⟩ :: ⟨level, Phrase.dry⟩ :: ⟨level + 1, exit.text⟩ ::
      ⟨level, Phrase.store⟩ :: rest.lines level
  | .loop body rest =>
    ⟨level, Phrase.loop⟩ :: (blockOf (level + 1) (body.lines (level + 1)) ++ rest.lines level)
  | .call helper rest => ⟨level, Phrase.call.text helper⟩ :: rest.lines level

end Code

def blankLine : Line := ⟨0, ""⟩

def Helper.lines (h : Helper) : List Line :=
  ⟨0, Phrase.helper.text h.number⟩ :: ⟨1, Phrase.loop⟩ ::
    (blockOf 2 (h.body.lines 2) ++ [⟨1, Phrase.leave⟩])

/-- What every routine's text starts with. -/
def preludeLines : List Line :=
  [⟨0, "_BYTES = [bytes((i,)) for i in range(256)]"⟩,
   blankLine,
   blankLine,
   ⟨0, "class _Halt(Exception):"⟩,
   ⟨1, "def __init__(self, address):"⟩,
   ⟨2, "super().__init__(address)"⟩,
   ⟨2, "self.address = address"⟩]

def runHeader : Line := ⟨0, Phrase.run⟩

/-- What the main routine does before its statements. -/
def setupLines : List Line :=
  [⟨1, "read = input.read"⟩, ⟨1, "write = output.write"⟩, ⟨1, "size = len(memory)"⟩]

namespace Routine

def bodyLines (r : Routine) : List Line :=
  if r.guarded then
    ⟨1, Phrase.guard⟩ :: (blockOf 2 (r.body.lines 2) ++
      [⟨1, Phrase.caught⟩, ⟨2, Phrase.leaveCaught⟩])
  else r.body.lines 1

def lines (r : Routine) : List Line :=
  preludeLines ++
    r.helpers.flatMap (fun h => blankLine :: blankLine :: h.lines) ++
    blankLine :: blankLine :: runHeader :: setupLines ++
    r.bodyLines ++ [⟨1, Phrase.leave⟩]

/-- Every line ends with a line feed. -/
def text (r : Routine) : String := String.join (r.lines.map fun l => l.render ++ "\n")

end Routine

end TapeChain
