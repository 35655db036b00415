import TapeChain.Number.Shortest

/-! Decimal numerals: an optional sign, digits of any script with single underscores between them,
a point, an exponent; or a word for an infinity or for no number. -/
namespace TapeChain.Number

/-- A run of digits with single underscores between them, and what follows it. -/
def takeDigits (cs : List Char) : Option (List Nat) × List Char :=
  let run := cs.takeWhile fun c => Text.isDigit c || c = '_'
  let rest := cs.dropWhile fun c => Text.isDigit c || c = '_'
  if run.isEmpty then (some [], rest)
  else if underscoresFit run then (some (run.filterMap Text.digitValue?), rest)
  else (none, rest)

/-- The exponent after the digits; nothing else may follow. -/
def takeExponent : List Char → Option Int
  | [] => some 0
  | c :: cs =>
    if c = 'e' || c = 'E' then
      let (negative, body) := splitSign cs
      match takeDigits body with
      | (some (d :: ds), []) => some (applySign negative (ofDigitValues 0 (d :: ds)))
      | _ => none
    else none

/-- `digits × 10^exponent`, rounded; exponents far out of range are not expanded. -/
def ofScientific (negative : Bool) (digits : Nat) (exponent : Int) : Binary64 :=
  if digits = 0 then .finite negative 0
  else
    let size : Int := (Nat.toDigits 10 digits).length
    if 400 < size + exponent then .infinite negative
    else if size + exponent < -400 then .finite negative 0
    else .ofMagnitude negative ((digits : Rat) * tenPow exponent)

/-- A decimal without a sign. -/
def readUnsigned (negative : Bool) (cs : List Char) : Option Binary64 := do
  let lower := cs.map Char.toLower
  if lower = "inf".toList || lower = "infinity".toList then return .infinite negative
  if lower = "nan".toList then return .nan
  let (whole, rest) := takeDigits cs
  let whole ← whole
  let (fraction, rest) := match rest with
    | '.' :: tail => takeDigits tail
    | _ => (some [], rest)
  let fraction ← fraction
  if whole.isEmpty && fraction.isEmpty then none
  let exponent ← takeExponent rest
  return ofScientific negative (ofDigitValues 0 (whole ++ fraction)) (exponent - fraction.length)

/-- Decimal numerals, infinities and the not-a-number word, with blanks around them. -/
def readDecimal (text : String) : Option Binary64 :=
  let (negative, body) := splitSign (Text.trimBlanks text.toList)
  readUnsigned negative body

end TapeChain.Number
