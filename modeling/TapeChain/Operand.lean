/-! Immediate operands. An operand is spelled by eight hexadecimal digits, most significant
first, and read as a signed 32-bit number in two's complement. -/
namespace TapeChain

abbrev HexDigit := Fin 16

namespace HexDigit

/-- The upper-case letter of a digit. -/
def letter (d : HexDigit) : Char :=
  Char.ofNat (if d.val < 10 then 48 + d.val else 55 + d.val)

/-- The symbol that names a digit, `Hex0` to `HexF`. -/
def name (d : HexDigit) : String := "Hex" ++ String.singleton d.letter

def all : List HexDigit := List.finRange 16

end HexDigit

structure Operand where
  d7 : HexDigit
  d6 : HexDigit
  d5 : HexDigit
  d4 : HexDigit
  d3 : HexDigit
  d2 : HexDigit
  d1 : HexDigit
  d0 : HexDigit
  deriving DecidableEq, Hashable

namespace Operand

def digits (o : Operand) : List HexDigit := [o.d7, o.d6, o.d5, o.d4, o.d3, o.d2, o.d1, o.d0]

def ofDigits? : List HexDigit → Option Operand
  | [d7, d6, d5, d4, d3, d2, d1, d0] => some ⟨d7, d6, d5, d4, d3, d2, d1, d0⟩
  | _ => none

/-- The digits read as one unsigned number. -/
def unsigned (o : Operand) : Nat :=
  268435456 * o.d7.val + 16777216 * o.d6.val + 1048576 * o.d5.val + 65536 * o.d4.val +
    4096 * o.d3.val + 256 * o.d2.val + 16 * o.d1.val + o.d0.val

/-- The top digit carries the sign. -/
def value (o : Operand) : Int :=
  if o.unsigned < 2147483648 then o.unsigned else o.unsigned - 4294967296

/-- Every integer has an operand: its residue modulo 2^32. -/
def encode (v : Int) : Operand :=
  let raw := (v % 4294967296).toNat
  { d7 := Fin.ofNat 16 (raw / 268435456)
    d6 := Fin.ofNat 16 (raw / 16777216)
    d5 := Fin.ofNat 16 (raw / 1048576)
    d4 := Fin.ofNat 16 (raw / 65536)
    d3 := Fin.ofNat 16 (raw / 4096)
    d2 := Fin.ofNat 16 (raw / 256)
    d1 := Fin.ofNat 16 (raw / 16)
    d0 := Fin.ofNat 16 raw }

def least : Int := -2147483648

def greatest : Int := 2147483647

def name : String := "Int"

theorem unsigned_lt (o : Operand) : o.unsigned < 4294967296 := by
  have h7 := o.d7.isLt
  have h6 := o.d6.isLt
  have h5 := o.d5.isLt
  have h4 := o.d4.isLt
  have h3 := o.d3.isLt
  have h2 := o.d2.isLt
  have h1 := o.d1.isLt
  have h0 := o.d0.isLt
  unfold unsigned
  omega

theorem value_bounds (o : Operand) : least ≤ o.value ∧ o.value ≤ greatest := by
  have h := o.unsigned_lt
  unfold value least greatest
  split <;> omega

end Operand

end TapeChain
