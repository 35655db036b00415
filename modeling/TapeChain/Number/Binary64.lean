import TapeChain.Number.Integer

/-! Binary floating-point numbers with 53-bit significands. A finite number is its exact rational
value; every operation is exact arithmetic followed by one rounding to the nearest number, a tie
going to the even significand. -/
namespace TapeChain.Number

/-- `n / d` to the nearest integer, a tie to the even one. -/
def roundHalfEven (n d : Nat) : Nat :=
  let q := n / d
  let r := n % d
  if 2 * r < d then q
  else if d < 2 * r then q + 1
  else if q % 2 = 0 then q else q + 1

/-- Two to an integer power. -/
def twoPow (e : Int) : Rat := if 0 ≤ e then Nat.pow 2 e.toNat else 1 / Nat.pow 2 (-e).toNat

/-- The exponent of the last place of `n / d > 0`: the quotient lies between 2^52 and 2^53 of these
units. -/
def lastPlace (n d : Nat) : Int :=
  let e : Int := (Nat.log2 n : Int) - Nat.log2 d
  let reached := if 0 ≤ e then d * Nat.pow 2 e.toNat ≤ n else d ≤ n * Nat.pow 2 (-e).toNat
  if reached then e - 52 else e - 53

/-- The last place of the smallest numbers. -/
def leastPlace : Int := -1074

/-- The multiple of 2^`e` nearest to `n / d`, as a count of such units. -/
def unitsOf (n d : Nat) (e : Int) : Nat :=
  if 0 ≤ e then roundHalfEven n (d * Nat.pow 2 e.toNat)
  else roundHalfEven (n * Nat.pow 2 (-e).toNat) d

/-- The number nearest to a non-negative quotient, with no bound on its size. -/
def nearestQuotient (n d : Nat) : Rat :=
  if n = 0 then 0
  else
    let e := max leastPlace (lastPlace n d)
    (unitsOf n d e : Rat) * twoPow e

/-- The number nearest to a rational, with no bound on its size. -/
def nearest (q : Rat) : Rat :=
  if q < 0 then -nearestQuotient q.num.natAbs q.den else nearestQuotient q.num.natAbs q.den

/-- The largest integer whose square is at most `n`, found from above. -/
def isqrtFrom : Nat → Nat → Nat → Nat
  | 0, _, x => x
  | fuel + 1, n, x =>
    let y := (x + n / x) / 2
    if y < x then isqrtFrom fuel n y else x

def isqrt (n : Nat) : Nat :=
  if n = 0 then 0 else isqrtFrom (Nat.log2 n + 2) n (Nat.pow 2 (Nat.log2 n / 2 + 1))

/-- The number nearest to the square root of `n / d`. -/
def nearestRootQuotient (n d : Nat) : Rat :=
  if n = 0 then 0
  else
    let wide := lastPlace n d + 52
    let e := max leastPlace (wide / 2 - 52)
    -- the root is at least 2^52 and below 2^53 in units of 2^e
    let (a, b) := if 0 ≤ e then (n, d * Nat.pow 4 e.toNat) else (n * Nat.pow 4 (-e).toNat, d)
    let s := isqrt (a / b)
    let half := b * (4 * s * s + 4 * s + 1)
    let units := if 4 * a < half then s else if half < 4 * a then s + 1
      else if s % 2 = 0 then s else s + 1
    (units : Rat) * twoPow e

def nearestRoot (q : Rat) : Rat := nearestRootQuotient q.num.natAbs q.den

/-- A number, an infinity, or no number. The sign is kept apart since zero has one too. -/
inductive Binary64 where
  | finite (negative : Bool) (magnitude : Rat)
  | infinite (negative : Bool)
  | nan
  deriving DecidableEq

namespace Binary64

def value? : Binary64 → Option Rat
  | .finite negative m => some (if negative then -m else m)
  | _ => none

/-- The number nearest to `m` with the given sign; from 2^1024 on it is an infinity. -/
def ofMagnitude (negative : Bool) (m : Rat) : Binary64 :=
  let r := nearest m
  if r < Nat.pow 2 1024 then .finite negative r else .infinite negative

def ofRat (q : Rat) : Binary64 := ofMagnitude (decide (q < 0)) (if q < 0 then -q else q)

/-- `x < y` for a finite left side; false when `y` is no number. -/
def exceeds (x : Rat) : Binary64 → Bool
  | .infinite negative => !negative
  | .nan => false
  | .finite negative m => decide (x < if negative then -m else m)

/-- `x` with the fraction cut off. -/
def truncate? : Binary64 → Option Int
  | .finite negative m => some (applySign negative m.floor.toNat)
  | _ => none

end Binary64

end TapeChain.Number
