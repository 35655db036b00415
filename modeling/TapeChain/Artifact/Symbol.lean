import TapeChain.Artifact.Value

/-! The closed table of the symbols that an artifact may use. -/
namespace TapeChain

inductive Symbol where
  | digit (d : HexDigit)
  | operand
  | stop
  | loop
  | move
  | add
  | output
  | input
  deriving DecidableEq

inductive SymbolFault where
  | unknown (name : String)
  | arity (name : String) (wanted got : Nat)
  | argument (position : Nat) (name : String) (wanted : Kind) (shown : String)
  | bareInteger

def SymbolFault.message : SymbolFault → String
  | .unknown name => s!"Unknown symbol '{name}'"
  | .arity name wanted got => s!"'{name}' takes {wanted} argument(s), got {got}"
  | .argument position name wanted shown =>
      s!"Argument {position} of '{name}' must be {wanted.name}, got {shown}"
  | .bareInteger => "'int' object has no attribute 'arguments'"

namespace Symbol

def tableVersion : Nat := 1

def all : List Symbol :=
  HexDigit.all.map .digit ++ [.operand, .stop, .loop, .move, .add, .output, .input]

def name : Symbol → String
  | .digit d => d.name
  | .operand => Operand.name
  | .stop => "Stop"
  | .loop => "Loop"
  | .move => "AddPointer"
  | .add => "AddData"
  | .output => "OutputData"
  | .input => "InputData"

def params : Symbol → List Kind
  | .digit _ => []
  | .operand => List.replicate 8 .hex
  | .stop => []
  | .loop => [.op, .op]
  | .move => [.int, .op]
  | .add => [.int, .op]
  | .output => [.op]
  | .input => [.op]

def ofName? (name : String) : Option Symbol := all.find? fun s => s.name = name

def resolve (name : String) : Except SymbolFault Symbol :=
  match ofName? name with
  | some s => .ok s
  | none => .error (.unknown name)

/-- The first argument, from `position` on, whose kind is not the wanted one. -/
def misfit? (s : Symbol) : Nat → List Kind → List Value → Option SymbolFault
  | position, kind :: kinds, value :: values =>
    if value.kindName = kind.name then misfit? s (position + 1) kinds values
    else some (.argument position s.name kind value.shown)
  | _, _, _ => none

/-- Joins arguments of the right number and kinds. A plain integer goes by the name of an operand's
kind, but is none. -/
def join : Symbol → List Value → Except SymbolFault Value
  | .digit d, [] => .ok (.digit d)
  | .operand, [.digit d7, .digit d6, .digit d5, .digit d4, .digit d3, .digit d2, .digit d1,
      .digit d0] => .ok (.operand ⟨d7, d6, d5, d4, d3, d2, d1, d0⟩)
  | .stop, [] => .ok (.chain .stop)
  | .loop, [.chain body, .chain next] => .ok (.chain (.loop body next))
  | .move, [.operand offset, .chain next] => .ok (.chain (.move offset next))
  | .add, [.operand delta, .chain next] => .ok (.chain (.add delta next))
  | .output, [.chain next] => .ok (.chain (.output next))
  | .input, [.chain next] => .ok (.chain (.input next))
  | _, _ => .error .bareInteger

/-- The number of arguments is judged before their kinds. -/
def build (s : Symbol) (args : List Value) : Except SymbolFault Value :=
  if args.length ≠ s.params.length then .error (.arity s.name s.params.length args.length)
  else
    match misfit? s 1 s.params args with
    | some fault => .error fault
    | none => s.join args

end Symbol

end TapeChain
