import TapeChain.Chain.Spelling
import TapeChain.Datum

/-! The values that artifacts describe: hexadecimal digits, operands and chains. Plain values stand
beside them so that a wrong argument can be shown. A chain is shown whole, however deep it is: the stack
of the host, which can end the text of a long chain, is not modelled. -/
namespace TapeChain

inductive Kind where
  | op
  | int
  | hex
  deriving DecidableEq

def Kind.name : Kind → String
  | .op => "op"
  | .int => "int"
  | .hex => "hex"

inductive Value where
  | digit (d : HexDigit)
  | operand (o : Operand)
  | chain (c : Chain)
  | plain (d : Datum)

def Operand.shown (o : Operand) : String := s!"Int({o.value})"

/-- The pieces of the text that shows a chain in a message, in front of `after`. -/
def Chain.shownPieces : Chain → List String → List String
  | .stop, after => "Stop()" :: after
  | .loop body next, after =>
    "Loop(body=" :: body.shownPieces (", next=" :: next.shownPieces (")" :: after))
  | .move offset next, after =>
    "AddPointer(offset=" :: offset.shown :: ", next=" :: next.shownPieces (")" :: after)
  | .add delta next, after =>
    "AddData(delta=" :: delta.shown :: ", next=" :: next.shownPieces (")" :: after)
  | .output next, after => "OutputData(next=" :: next.shownPieces (")" :: after)
  | .input next, after => "InputData(next=" :: next.shownPieces (")" :: after)

def Chain.shown (c : Chain) : String := String.join (c.shownPieces [])

namespace Value

/-- The name of a value's kind; a plain value goes by its type. -/
def kindName : Value → String
  | .digit _ => Kind.hex.name
  | .operand _ => Kind.int.name
  | .chain _ => Kind.op.name
  | .plain d => d.typeName

def shown : Value → String
  | .digit d => d.name
  | .operand o => o.shown
  | .chain c => c.shown
  | .plain d => d.shown

/-- The text of a value in an artifact; a plain value has none. -/
def spell? (style : Style) : Value → Option String
  | .digit d => some d.name
  | .operand o => some (o.spell style)
  | .chain c => some (c.spell style)
  | .plain _ => none

/-- Values of different kinds are never equal. -/
def same : Value → Value → Bool
  | .digit a, .digit b => a = b
  | .operand a, .operand b => a = b
  | .chain a, .chain b => a = b
  | .plain a, .plain b => a.same b
  | _, _ => false

end Value

/-! ### Making digits and operands from plain values -/

inductive ValueFault where
  | outOfRange (shown : String)
  | notADigit
  | notANumber (typeName : String)
  | numeral (fault : Number.IntegerFault)
  | infinite
  | nan
  | unordered (typeName : String)
  | notAnIndex (typeName : String)
  | unhashable (typeName : String)
  | digitCount (count : Nat)
  | digitKind (shown : String)

def ValueFault.message : ValueFault → String
  | .outOfRange shown => s!"Hex digit out of range: {shown}"
  | .notADigit => "Hex digit must be in range 0..15"
  | .notANumber typeName =>
      s!"int() argument must be a string, a bytes-like object or a real number, not '{typeName}'"
  | .numeral fault => fault.message
  | .infinite => "cannot convert float infinity to integer"
  | .nan => "cannot convert float NaN to integer"
  | .unordered typeName => s!"'<=' not supported between instances of 'int' and '{typeName}'"
  | .notAnIndex typeName => s!"tuple indices must be integers or slices, not {typeName}"
  | .unhashable typeName => s!"unhashable type: '{typeName}'"
  | .digitCount count => s!"Int takes 8 digits, got {count}"
  | .digitKind shown => s!"Int digit must be a HexDigit, got {shown}"

/-- The integer that a plain value stands for: fractions are cut off, numerals are read. -/
def Datum.toInt : Datum → Except ValueFault Int
  | .bool b => .ok (if b then 1 else 0)
  | .int i => .ok i
  | .float x =>
    match x with
    | .infinite _ => .error .infinite
    | .nan => .error .nan
    | x => .ok (x.truncate?.getD 0)
  | .text s => (Number.readInteger s).mapError .numeral
  | d => .error (.notANumber d.typeName)

namespace HexDigit

def ofInt? (i : Int) : Option HexDigit :=
  if h : 0 ≤ i ∧ i < 16 then some ⟨i.toNat, by omega⟩ else none

/-- A digit from anything that stands for an integer. -/
def ofDatum (d : Datum) : Except ValueFault HexDigit := do
  match ofInt? (← d.toInt) with
  | some digit => return digit
  | none => throw .notADigit

/-- A digit by its place in the row of digits: only numbers have an order there, and only integers
name a place. -/
def byIndex (d : Datum) : Except ValueFault HexDigit :=
  match d.number? with
  | none =>
    match d with
    | .float _ => .error (.outOfRange d.shown)
    | _ => .error (.unordered d.typeName)
  | some q =>
    if 0 ≤ q ∧ q ≤ 15 then
      match d with
      | .float _ => .error (.notAnIndex d.typeName)
      | _ =>
        match ofInt? q.num with
        | some digit => .ok digit
        | none => .error (.outOfRange d.shown)
    else .error (.outOfRange d.shown)

end HexDigit

namespace Operand

/-- An operand from anything that stands for an integer. -/
def ofDatum (d : Datum) : Except ValueFault Operand :=
  match d with
  | .list _ => .error (.unhashable d.typeName)
  | .table _ => .error (.unhashable d.typeName)
  | d => d.toInt.map encode

def digitOf : Value → Except ValueFault HexDigit
  | .digit d => .ok d
  | v => .error (.digitKind v.shown)

/-- An operand from its digits; their number is judged before their kinds. -/
def ofValues (vs : List Value) : Except ValueFault Operand := do
  if vs.length ≠ 8 then throw (.digitCount vs.length)
  match ofDigits? (← vs.mapM digitOf) with
  | some o => return o
  | none => throw (.digitCount vs.length)

end Operand

end TapeChain
