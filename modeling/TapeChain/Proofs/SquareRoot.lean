import Mathlib.Data.Nat.Sqrt
import TapeChain.Proofs.Rounding

/-! The rounded square root. The integer root is found by steps from above, each of which halves the
distance; with it the root of a quotient is rounded correctly (`nearestRoot_roundsTo`). -/
namespace TapeChain.Number

/-! ### The integer root -/

theorem sqrt_le_step {n x : ℕ} (pos : 0 < x) : Nat.sqrt n ≤ (x + n / x) / 2 := by
  have square := Nat.sqrt_le n
  generalize Nat.sqrt n = s at *
  have quotient : 2 * s - x ≤ n / x := by
    rw [Nat.le_div_iff_mul_le pos]
    obtain small | large := Nat.le_total (2 * s) x
    · simp [Nat.sub_eq_zero_of_le small]
    · zify [large] at square ⊢
      linarith [sq_nonneg ((s : ℤ) - x)]
  omega

theorem step_le_middle {n x : ℕ} (above : Nat.sqrt n < x) :
    (x + n / x) / 2 ≤ (x + Nat.sqrt n) / 2 := by
  have quotient : n / x < Nat.sqrt n + 1 := by
    rw [Nat.div_lt_iff_lt_mul (by omega)]
    calc n < (Nat.sqrt n + 1) * (Nat.sqrt n + 1) := Nat.lt_succ_sqrt n
      _ ≤ (Nat.sqrt n + 1) * x := Nat.mul_le_mul_left _ above
  omega

/-- The steps end at the root: from a start above it they halve the distance. -/
theorem isqrtFrom_eq_sqrt {n : ℕ} (pos : 0 < n) (fuel : ℕ) {x : ℕ} (above : Nat.sqrt n ≤ x)
    (close : x < Nat.sqrt n + 2 ^ fuel) : isqrtFrom fuel n x = Nat.sqrt n := by
  induction fuel generalizing x with
  | zero =>
      rw [isqrtFrom]
      omega
  | succ fuel ih =>
      have least := sqrt_le_step (n := n) ((Nat.sqrt_pos.mpr pos).trans_le above)
      obtain same | strict := above.eq_or_lt
      · rw [isqrtFrom, if_neg (by omega), same]
      · have middle := step_le_middle strict
        rw [isqrtFrom, if_pos (by omega)]
        rw [pow_succ] at close
        exact ih least (by omega)

theorem isqrt_eq_sqrt (n : ℕ) : isqrt n = Nat.sqrt n := by
  unfold isqrt
  split_ifs with zero
  · rw [zero, Nat.sqrt_zero]
  · simp only [Nat.pow_eq]
    have small : n < 2 ^ (Nat.log2 n / 2 + 1) * 2 ^ (Nat.log2 n / 2 + 1) := by
      rw [← pow_add]
      exact Nat.lt_log2_self.trans_le (Nat.pow_le_pow_right two_pos (by omega))
    refine isqrtFrom_eq_sqrt (Nat.pos_of_ne_zero zero) _ (Nat.sqrt_lt.mpr small).le ?_
    have wide : 2 ^ (Nat.log2 n / 2 + 1) < 2 ^ (Nat.log2 n + 2) :=
      Nat.pow_lt_pow_right one_lt_two (by omega)
    omega

/-! ### Rounding the root of a quotient -/

theorem root_nearest (a : ℕ) {b s : ℕ} (pos : 0 < b) (root : isqrt (a / b) = s) :
    NearestInteger √(a / b)
      (if 4 * a < b * (4 * s * s + 4 * s + 1) then s
        else if b * (4 * s * s + 4 * s + 1) < 4 * a then s + 1
        else if s % 2 = 0 then s else s + 1) := by
  rw [isqrt_eq_sqrt] at root
  have real : (0 : ℝ) < b := by exact_mod_cast pos
  have lower : s * s * b ≤ a := by
    rw [← Nat.le_div_iff_mul_le pos, ← root]
    exact Nat.sqrt_le _
  have upper : a < (s + 1) * (s + 1) * b := by
    rw [← Nat.div_lt_iff_lt_mul pos, ← root]
    exact Nat.lt_succ_sqrt _
  have middle : (0 : ℝ) ≤ s + 1 / 2 := by positivity
  refine .of_middle ?_ ?_ ?_ ?_
  · apply Real.le_sqrt_of_sq_le
    rw [le_div_iff₀ real, sq]
    exact_mod_cast lower
  · rw [Real.sqrt_lt' (by positivity), div_lt_iff₀ real, sq]
    exact_mod_cast upper
  · rw [Real.sqrt_lt' (by positivity), div_lt_iff₀ real, ← Nat.cast_lt (α := ℝ)]
    push_cast
    constructor <;> intro h <;> linarith
  · rw [Real.lt_sqrt middle, lt_div_iff₀ real, ← Nat.cast_lt (α := ℝ)]
    push_cast
    constructor <;> intro h <;> linarith

theorem four_zpow (e : ℤ) : (4 : ℝ) ^ e = (2 ^ e) ^ 2 := by
  rw [← zpow_natCast, ← zpow_mul, mul_comm, zpow_mul]
  norm_num

theorem sqrt_div_four_zpow (x : ℝ) (e : ℤ) : √(x / 4 ^ e) = √x / 2 ^ e := by
  rw [four_zpow, Real.sqrt_div' x (sq_nonneg _), Real.sqrt_sq (by positivity)]

/-- The root has half the logarithm. -/
theorem lastPlace_sqrt {t : ℝ} {l : ℤ} (lower : 2 ^ l ≤ t) (upper : t < 2 ^ (l + 1)) :
    LastPlace √t (max leastPlace (l / 2 - 52)) := by
  apply LastPlace.of_log
  · apply Real.le_sqrt_of_sq_le
    calc ((2 : ℝ) ^ (l / 2)) ^ 2 = 2 ^ (l / 2 * 2) := by rw [← zpow_natCast, ← zpow_mul]; rfl
      _ ≤ 2 ^ l := zpow_le_zpow_right₀ one_le_two (by omega)
      _ ≤ t := lower
  · rw [Real.sqrt_lt' (by positivity)]
    calc t < 2 ^ (l + 1) := upper
      _ ≤ 2 ^ ((l / 2 + 1) * 2) := zpow_le_zpow_right₀ one_le_two (by omega)
      _ = (2 ^ (l / 2 + 1)) ^ 2 := by rw [← zpow_natCast, ← zpow_mul]; rfl

theorem nearestRootQuotient_roundsTo (n : ℕ) {d : ℕ} (pos : 0 < d) :
    RoundsTo √(n / d) (nearestRootQuotient n d) := by
  unfold nearestRootQuotient
  split_ifs with zero
  · subst zero
    rw [Nat.cast_zero, zero_div, Real.sqrt_zero]
    exact .zero
  · obtain ⟨lower, upper⟩ := lastPlace_log (Nat.pos_of_ne_zero zero) pos
    have place := lastPlace_sqrt lower upper
    simp only [Nat.pow_eq, twoPow_eq]
    generalize max leastPlace ((lastPlace n d + 52) / 2 - 52) = e at place
    refine NearestInteger.roundsTo ?_ place
    rw [← sqrt_div_four_zpow]
    by_cases h : 0 ≤ e
    · rw [if_pos h]
      have near := root_nearest n (Nat.mul_pos pos (Nat.pow_pos (n := e.toNat) four_pos)) rfl
      rwa [Nat.cast_mul, cast_pow_toNat 4 h, Nat.cast_ofNat, ← div_div] at near
    · rw [if_neg h]
      have near := root_nearest (n * 4 ^ (-e).toNat) pos rfl
      rwa [Nat.cast_mul, cast_pow_toNat 4 (by omega), Nat.cast_ofNat, zpow_neg, mul_div_right_comm,
        ← div_eq_mul_inv] at near

/-- The rounded square root is correct. -/
theorem nearestRoot_roundsTo {q : ℚ} (nonneg : 0 ≤ q) : RoundsTo √q (nearestRoot q) := by
  have root := nearestRootQuotient_roundsTo q.num.natAbs q.den_pos
  have value : ((q.num.natAbs : ℕ) : ℝ) / q.den = q := by
    rw [Nat.cast_natAbs, abs_of_nonneg (Rat.num_nonneg.mpr nonneg), ← Rat.cast_def]
  rwa [value] at root

end TapeChain.Number
