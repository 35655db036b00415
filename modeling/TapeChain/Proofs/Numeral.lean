import Mathlib.Data.List.TakeWhile
import TapeChain.Number.Integer
import TapeChain.Proofs.Operand

/-! Decimal numerals: an optional sign and ASCII digits. The integer reader gives the value of every
numeral that is not too long, and an operand's value is printed as a numeral. -/
namespace TapeChain

inductive Sign where
  | absent
  | plus
  | minus
  deriving DecidableEq

def Sign.chars : Sign → List Char
  | .absent => []
  | .plus => ['+']
  | .minus => ['-']

def Sign.apply (n : Nat) : Sign → Int
  | .absent => n
  | .plus => n
  | .minus => -n

/-- An optional sign and at least one ASCII digit. -/
structure Numeral where
  sign : Sign
  digits : List Char
  present : digits ≠ []
  decimal : ∀ c ∈ digits, c.isDigit

namespace Numeral

def chars (n : Numeral) : List Char := n.sign.chars ++ n.digits

def value (n : Numeral) : Int := n.sign.apply (Nat.ofDigitChars 10 n.digits 0)

/-! ### Single digits -/

section Digit

variable {c : Char}

theorem bounds_of_isDigit (h : c.isDigit) : 48 ≤ c.toNat ∧ c.toNat ≤ 57 :=
  Char.isDigit_iff_toNat.mp h

theorem digitValue?_of_isDigit (h : c.isDigit) : Text.digitValue? c = some (c.toNat - 48) := by
  obtain ⟨low, high⟩ := bounds_of_isDigit h
  have zeros : Text.digitZeros = 48 :: Text.digitZeros.tail := rfl
  rw [Text.digitValue?, zeros, List.find?_cons_of_pos, Option.map_some]
  simp only [low, high, decide_true, Bool.and_self]

theorem not_isBlank_of_isDigit (h : c.isDigit) : Text.isBlank c = false := by
  obtain ⟨low, high⟩ := bounds_of_isDigit h
  have outside : ∀ point ∈ Text.blankPoints, point < 48 ∨ 57 < point := by decide
  rw [Text.isBlank, List.contains_eq_mem, decide_eq_false_iff_not]
  intro mem
  have apart := outside c.toNat mem
  omega

theorem ne_of_isDigit (h : c.isDigit) {d : Char} (other : d.isDigit = false) : c ≠ d := by
  rintro rfl
  exact absurd h (by simp only [other, Bool.false_eq_true, not_false_eq_true])

end Digit

/-! ### The integer reader -/

section Digits

variable {cs : List Char}

theorem dropWhile_eq_self {p : Char → Bool} (h : ∀ c ∈ cs, p c = false) : cs.dropWhile p = cs := by
  cases cs with
  | nil => rfl
  | cons c cs =>
      apply List.dropWhile_cons_of_neg
      simp only [h c List.mem_cons_self, Bool.false_eq_true, not_false_eq_true]

theorem trimBlanks_eq_self (h : ∀ c ∈ cs, Text.isBlank c = false) : Text.trimBlanks cs = cs := by
  have back : ∀ c ∈ cs.reverse, Text.isBlank c = false := fun c mem => h c (List.mem_reverse.mp mem)
  rw [Text.trimBlanks, dropWhile_eq_self h, dropWhile_eq_self back, List.reverse_reverse]

theorem underscoresFit_of_decimal (h : ∀ c ∈ cs, c.isDigit) : Number.underscoresFit cs = true := by
  have plain : ∀ c ∈ cs, c ≠ '_' := fun c mem => ne_of_isDigit (h c mem) rfl
  clear h
  fun_induction Number.underscoresFit cs <;> simp_all

theorem filterMap_digitValue? (h : ∀ c ∈ cs, c.isDigit) :
    cs.filterMap Text.digitValue? = cs.map fun c => c.toNat - 48 := by
  induction cs with
  | nil => rfl
  | cons c cs ih =>
      have one := digitValue?_of_isDigit (h c List.mem_cons_self)
      rw [List.filterMap_cons_some one, List.map_cons, ih fun d mem => h d (List.mem_cons_of_mem c mem)]

theorem ofDigitValues_map (acc : Nat) :
    Number.ofDigitValues acc (cs.map fun c => c.toNat - 48) = Nat.ofDigitChars 10 cs acc := by
  induction cs generalizing acc with
  | nil => rfl
  | cons c cs ih =>
      rw [List.map_cons, Number.ofDigitValues, ih, Nat.ofDigitChars_cons]
      rfl

end Digits

theorem not_isBlank_of_mem_sign {s : Sign} {c : Char} (h : c ∈ s.chars) : Text.isBlank c = false := by
  cases s with
  | absent => cases h
  | plus =>
      rw [List.mem_singleton.mp h]
      rfl
  | minus =>
      rw [List.mem_singleton.mp h]
      rfl

theorem splitSign_chars (n : Numeral) :
    Number.splitSign n.chars = (decide (n.sign = .minus), n.digits) := by
  obtain ⟨sign, digits, present, decimal⟩ := n
  cases sign with
  | plus => rfl
  | minus => rfl
  | absent =>
      cases digits with
      | nil => exact absurd rfl present
      | cons c cs =>
          have minus : c ≠ '-' := ne_of_isDigit (decimal c List.mem_cons_self) rfl
          have plus : c ≠ '+' := ne_of_isDigit (decimal c List.mem_cons_self) rfl
          simp [chars, Sign.chars, Number.splitSign, minus, plus]

/-- No numeral is malformed: it has a value, unless it has too many digits. -/
theorem readInteger_chars (n : Numeral) :
    Number.readInteger (String.ofList n.chars) =
      if 4300 < n.digits.length then .error (.tooLong n.digits.length) else .ok n.value := by
  have solid : ∀ c ∈ n.chars, Text.isBlank c = false := by
    intro c mem
    rcases List.mem_append.mp mem with sign | digit
    · exact not_isBlank_of_mem_sign sign
    · exact not_isBlank_of_isDigit (n.decimal c digit)
  have all : ∀ c ∈ n.digits, (Text.isDigit c || decide (c = '_')) = true := by
    intro c mem
    simp [Text.isDigit, digitValue?_of_isDigit (n.decimal c mem)]
  have empty : (n.digits.map fun c => c.toNat - 48).isEmpty = false := by
    simp [n.present]
  have sign (k : Nat) : Number.applySign (decide (n.sign = .minus)) k = n.sign.apply k := by
    cases n.sign <;> rfl
  simp only [Number.readInteger, String.toList_ofList, trimBlanks_eq_self solid, splitSign_chars,
    List.takeWhile_eq_self_iff.mpr all, List.dropWhile_eq_nil_iff.mpr all,
    underscoresFit_of_decimal n.decimal, filterMap_digitValue? n.decimal, ofDigitValues_map, empty,
    sign, value, List.length_map, Number.digitLimit]
  rfl

/-! ### Printed integers -/

/-- The numeral that an integer is printed as. -/
def ofInt (v : Int) : Numeral where
  sign := if v < 0 then .minus else .absent
  digits := Nat.toDigits 10 v.natAbs
  present := Nat.toDigits_ne_nil
  decimal _ mem := Nat.isDigit_of_mem_toDigits (by decide) (by decide) mem

theorem toString_eq (v : Int) : toString v = String.ofList (ofInt v).chars := by
  cases v with
  | ofNat n => rfl
  | negSucc n =>
      have h : Int.negSucc n < 0 := Int.negSucc_lt_zero n
      have minus : "-" = String.ofList ['-'] := rfl
      change "-" ++ String.ofList (Nat.toDigits 10 (n + 1)) = _
      simp only [ofInt, chars, if_pos h, Sign.chars, String.ofList_append, ← minus,
        Int.natAbs_negSucc]

theorem value_ofInt (v : Int) : (ofInt v).value = v := by
  have digits : Nat.ofDigitChars 10 (Nat.toDigits 10 v.natAbs) 0 = v.natAbs :=
    Nat.ofDigitChars_toDigits (by decide) (by decide)
  by_cases negative : v < 0
  · simp only [value, ofInt, if_pos negative, Sign.apply, digits]
    omega
  · simp only [value, ofInt, if_neg negative, Sign.apply, digits]
    omega

theorem length_ofInt {v : Int} (low : Operand.least ≤ v) (high : v ≤ Operand.greatest) :
    (ofInt v).digits.length ≤ 10 := by
  simp only [Operand.least, Operand.greatest] at low high
  apply (Nat.length_toDigits_le_iff (by decide) (by decide)).mpr
  omega

end Numeral

end TapeChain
