import TapeChain.Text.Classes
import TapeChain.Text.Quoted

/-! Integer numerals: blanks around them, an optional sign, decimal digits of any script, and
single underscores between digits. A numeral has at most 4300 digits. -/
namespace TapeChain.Number

def digitLimit : Nat := 4300

inductive IntegerFault where
  | malformed (text : String)
  | tooLong (digits : Nat)
  deriving DecidableEq

def IntegerFault.message : IntegerFault → String
  | .malformed text =>
      "invalid literal for int() with base 10: " ++
        String.ofList ((Text.quote text).toList.take 200)
  | .tooLong digits =>
      s!"Exceeds the limit ({digitLimit} digits) for integer string conversion: value has " ++
        s!"{digits} digits; use sys.set_int_max_str_digits() to increase the limit"

/-- The number that a list of decimal digits spells, after `acc`. -/
def ofDigitValues (acc : Nat) : List Nat → Nat
  | [] => acc
  | d :: ds => ofDigitValues (10 * acc + d) ds

/-- Splits off a leading sign; `true` stands for minus. -/
def splitSign : List Char → Bool × List Char
  | '-' :: cs => (true, cs)
  | '+' :: cs => (false, cs)
  | cs => (false, cs)

/-- No underscore at either end and never two in a row. -/
def underscoresFit : List Char → Bool
  | [] => true
  | '_' :: _ => false
  | [_] => true
  | _ :: '_' :: [] => false
  | _ :: '_' :: c :: cs => underscoresFit (c :: cs)
  | _ :: c :: cs => underscoresFit (c :: cs)

def applySign (negative : Bool) (n : Nat) : Int := if negative then -(n : Int) else n

def readInteger (text : String) : Except IntegerFault Int :=
  let (negative, body) := splitSign (Text.trimBlanks text.toList)
  let run := body.takeWhile fun c => Text.isDigit c || c = '_'
  let rest := body.dropWhile fun c => Text.isDigit c || c = '_'
  let digits := run.filterMap Text.digitValue?
  if !underscoresFit run then .error (.malformed text)
  else if digitLimit < digits.length then .error (.tooLong digits.length)
  else if digits.isEmpty || !rest.isEmpty then .error (.malformed text)
  else .ok (applySign negative (ofDigitValues 0 digits))

end TapeChain.Number
