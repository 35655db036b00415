import TapeChain.Artifact.Symbol
import TapeChain.Artifact.Term

/-! Building what a term describes. Terms are built level by level, the deepest level first and from
left to right inside a level, so of several ill-formed terms the deepest is reported, and of equally
deep ones the leftmost. No term is built before all of its arguments. -/
namespace TapeChain

inductive ArtifactFault where
  | malformed (fault : SyntaxFault)
  | symbol (fault : SymbolFault)
  | operandRange (value : Int)
  | numeral (fault : Number.IntegerFault)
  | notAChain (what : String)

def ArtifactFault.message : ArtifactFault → String
  | .malformed fault => "Malformed artifact: " ++ fault.message
  | .symbol fault => fault.message
  | .operandRange value => s!"Operand {value} does not fit in 32 bits"
  | .numeral fault => fault.message
  | .notAChain what => s!"Artifact describes a {what}, not a chain"

/-- A fault and the depth of the term it belongs to. -/
structure DeepFault where
  depth : Nat
  fault : ArtifactFault

/-- The fault that is met first: the deeper one, and of equally deep ones the left one. -/
def DeepFault.first (left right : DeepFault) : DeepFault :=
  if left.depth < right.depth then right else left

/-- The operand that a signed integer spells. -/
def Operand.ofLiteral (text : String) : Except ArtifactFault Operand := do
  let value ← (Number.readInteger text).mapError .numeral
  if Operand.least ≤ value ∧ value ≤ Operand.greatest then return .encode value
  else throw (.operandRange value)

/-- Joins arguments that are all built. -/
def joinSymbol (name : String) (args : List Value) : Except ArtifactFault Value := do
  let symbol ← (Symbol.resolve name).mapError .symbol
  (symbol.build args).mapError .symbol

def atDepth {α : Type} (depth : Nat) (r : Except ArtifactFault α) : Except DeepFault α :=
  r.mapError fun fault => ⟨depth, fault⟩

mutual

def Term.build (depth : Nat) : Term → Except DeepFault Value
  | .leaf name => atDepth depth (joinSymbol name [])
  | .literal text => atDepth depth ((Operand.ofLiteral text).map .operand)
  | .node name args =>
    match args.build (depth + 1) with
    | .error e => .error e
    | .ok values => atDepth depth (joinSymbol name values)

def Args.build (depth : Nat) : Args → Except DeepFault (List Value)
  | .nil => .ok []
  | .cons t rest =>
    match t.build depth, rest.build depth with
    | .ok value, .ok values => .ok (value :: values)
    | .error e, .ok _ => .error e
    | .ok _, .error e => .error e
    | .error left, .error right => .error (left.first right)

end

/-- The chain that a value is. -/
def Value.toChain : Value → Except ArtifactFault Chain
  | .chain c => .ok c
  | .operand _ => .error (.notAChain "Int")
  | .digit _ => .error (.notAChain "HexDigit")
  | .plain d => .error (.notAChain d.typeName)

/-- The chain that an artifact text describes. -/
def Chain.ofText (text : String) : Except ArtifactFault Chain := do
  let term ← (Term.read text).mapError .malformed
  let value ← (term.build 0).mapError DeepFault.fault
  value.toChain

end TapeChain
