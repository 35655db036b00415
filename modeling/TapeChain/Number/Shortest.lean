import TapeChain.Number.Binary64

/-! The text of a binary floating-point number: the fewest digits that read back, of those the
nearest to the exact value, laid out with or without an exponent. -/
namespace TapeChain.Number

/-- `digits × 10^(point - number of digits)`, the digits without leading zeros. -/
structure Decimal where
  digits : List Char
  point : Int

def tenPow (e : Int) : Rat := if 0 ≤ e then Nat.pow 10 e.toNat else 1 / Nat.pow 10 (-e).toNat

/-- The least `p` with `m < 10^p`, searched upwards from `p`. -/
def pointFrom : Nat → Rat → Int → Int
  | 0, _, p => p
  | fuel + 1, m, p => if m < tenPow p then p else pointFrom fuel m (p + 1)

/-- The least `p` with `m < 10^p`, for `m > 0`. -/
def pointOf (m : Rat) : Int :=
  let bits : Int := (Nat.log2 m.num.natAbs : Int) - Nat.log2 m.den
  pointFrom 5 m ((bits - 1) * 30103 / 100000 - 1)

/-- Of the two `count`-digit decimals around `m`, those that read back as `m`, the nearer first and
of two equally near the even one first. -/
def candidates (m : Rat) (count : Nat) : List Nat :=
  let scale := tenPow ((count : Int) - pointOf m)
  let scaled := m * scale
  let low := scaled.floor.toNat
  let high := low + 1
  let gap := 2 * (scaled - low)
  let nearer := if gap < 1 ∨ (gap = 1 ∧ low % 2 = 0) then [low, high] else [high, low]
  nearer.filter fun c => nearest ((c : Rat) / scale) = m

/-- The shortest decimal that reads back as `m`, tried with `count` digits and more. -/
def shortestFrom : Nat → Rat → Nat → Nat × Nat
  | 0, m, count => ((m * tenPow ((count : Int) - pointOf m)).floor.toNat, count)
  | fuel + 1, m, count =>
    match candidates m count with
    | c :: _ => (c, count)
    | [] => shortestFrom fuel m (count + 1)

def trimZeros (cs : List Char) : List Char := (cs.reverse.dropWhile (· = '0')).reverse

/-- The shortest decimal text of `m > 0`. -/
def shortest (m : Rat) : Decimal :=
  let (c, count) := shortestFrom 17 m 1
  let digits := (Nat.toDigits 10 c)
  { digits := trimZeros digits, point := pointOf m + ((digits.length : Int) - count) }

/-- At least two digits. -/
def padTwo (cs : List Char) : List Char := if cs.length < 2 then '0' :: cs else cs

/-- Positional from 10^-4 up to 10^16, with at least one digit after the point; otherwise one digit
before the point and an exponent of two digits or more. -/
def layOut (d : Decimal) : List Char :=
  let n : Int := d.digits.length
  if -4 < d.point ∧ d.point ≤ 0 then
    '0' :: '.' :: (List.replicate (-d.point).toNat '0' ++ d.digits)
  else if 0 < d.point ∧ d.point ≤ 16 then
    if n ≤ d.point then d.digits ++ List.replicate (d.point - n).toNat '0' ++ ['.', '0']
    else d.digits.take d.point.toNat ++ '.' :: d.digits.drop d.point.toNat
  else
    let e := d.point - 1
    let mark := if e < 0 then '-' else '+'
    let mantissa := match d.digits with
      | [] => []
      | [x] => [x]
      | x :: xs => x :: '.' :: xs
    mantissa ++ 'e' :: mark :: padTwo (Nat.toDigits 10 e.natAbs)

def magnitudeText (m : Rat) : String :=
  if m = 0 then "0.0" else String.ofList (layOut (shortest m))

def Binary64.text : Binary64 → String
  | .finite negative m => (if negative then "-" else "") ++ magnitudeText m
  | .infinite negative => (if negative then "-" else "") ++ "inf"
  | .nan => "nan"

end TapeChain.Number
