import Mathlib.Algebra.Order.Field.Power
import Mathlib.Analysis.Real.Sqrt
import Mathlib.Data.Int.Log
import TapeChain.Number.Binary64

/-! Correct rounding. `RoundsTo t x` says of a real number and a binary floating-point number that no
other such number is closer and that a tie goes to the even significand. Rounding a rational meets it
(`nearest_roundsTo`); what is used of rounding elsewhere follows from `RoundsTo` alone. -/
namespace TapeChain.Number

/-! ### Numbers and nearest numbers -/

/-- `x` is `k` units of 2^`e`, with at most 53 bits and no place below the least one. -/
structure Places (k e : ℤ) (x : ℚ) : Prop where
  bits : |k| ≤ 2 ^ 53
  least : leastPlace ≤ e
  value : x = k * 2 ^ e

def Representable (x : ℚ) : Prop := ∃ k e, Places k e x

/-- The last bit is zero when all 53 bits are written out, or as many as there are above the least
place. -/
def HasEvenSignificand (x : ℚ) : Prop :=
  ∃ k e, Places k e x ∧ Even k ∧ (e = leastPlace ∨ 2 ^ 52 ≤ |k|)

/-- `x` is the number nearest to `t`, a tie going to the even significand. -/
structure RoundsTo (t : ℝ) (x : ℚ) : Prop where
  representable : Representable x
  nearest : ∀ y, Representable y → |(x : ℝ) - t| ≤ |(y : ℝ) - t|
  even : ∀ y, Representable y → y ≠ x → |(y : ℝ) - t| = |(x : ℝ) - t| → HasEvenSignificand x

/-- The place that the last of 53 bits of `t` has, or the least place. -/
structure LastPlace (t : ℝ) (e : ℤ) : Prop where
  least : leastPlace ≤ e
  full : e = leastPlace ∨ 2 ^ 52 * 2 ^ e ≤ t
  upper : t < 2 ^ 53 * 2 ^ e

theorem LastPlace.of_log {t : ℝ} {l : ℤ} (lower : 2 ^ l ≤ t) (upper : t < 2 ^ (l + 1)) :
    LastPlace t (max leastPlace (l - 52)) := by
  refine ⟨le_max_left _ _, ?_, ?_⟩
  · refine (max_choice leastPlace (l - 52)).imp_right ?_
    intro same
    rw [same]
    calc (2 : ℝ) ^ 52 * 2 ^ (l - 52) = 2 ^ (52 + (l - 52)) := (zpow_add₀ two_ne_zero 52 _).symm
      _ = 2 ^ l := by rw [add_sub_cancel]
      _ ≤ t := lower
  · calc t < 2 ^ (l + 1) := upper
      _ ≤ 2 ^ (53 + max leastPlace (l - 52)) := zpow_le_zpow_right₀ one_le_two (by omega)
      _ = 2 ^ 53 * 2 ^ max leastPlace (l - 52) := zpow_add₀ two_ne_zero 53 _

namespace Places

variable {k j e f : ℤ} {x y : ℚ}

theorem neg (h : Places k e x) : Places (-k) e (-x) :=
  ⟨by rw [abs_neg]; exact h.bits, h.least, by rw [h.value]; push_cast; ring⟩

/-- In a finer place 53 bits reach no further than 52 bits in this one. -/
theorem le_of_finer (h : Places k e x) (finer : e < f) : x ≤ 2 ^ 52 * 2 ^ f := by
  have small : (k : ℚ) ≤ 2 ^ 53 := by exact_mod_cast (le_abs_self k).trans h.bits
  have half : (2 : ℚ) ^ e ≤ 2 ^ (f - 1) := zpow_le_zpow_right₀ one_le_two (by omega)
  calc x = k * 2 ^ e := h.value
    _ ≤ 2 ^ 53 * 2 ^ (f - 1) := by gcongr
    _ = 2 ^ 52 * 2 ^ f := by rw [zpow_sub_one₀ two_ne_zero]; ring

end Places

namespace Representable

variable {x y : ℚ}

theorem zero : Representable 0 := ⟨0, leastPlace, by decide, le_rfl, by simp⟩

theorem neg (h : Representable x) : Representable (-x) := by
  obtain ⟨k, e, places⟩ := h
  exact ⟨-k, e, places.neg⟩

theorem intCast {k : ℤ} (h : |k| ≤ 2 ^ 53) : Representable k :=
  ⟨k, 0, h, by decide, by simp⟩

theorem two_mul (h : Representable x) : Representable (2 * x) := by
  obtain ⟨k, e, bits, least, rfl⟩ := h
  refine ⟨k, e + 1, bits, by omega, ?_⟩
  rw [zpow_add_one₀ two_ne_zero]
  ring

/-- Against the multiples of 2^`e` a number is one of them, or it is small. -/
theorem on_grid_or_small (h : Representable y) (e : ℤ) :
    (∃ k : ℤ, (y : ℝ) = k * 2 ^ e) ∨ (leastPlace < e ∧ (y : ℝ) ≤ 2 ^ 52 * 2 ^ e) := by
  obtain ⟨k, f, places⟩ := h
  obtain coarse | fine := le_or_gt e f
  · obtain ⟨j, rfl⟩ := Int.le.dest coarse
    refine .inl ⟨k * 2 ^ j, ?_⟩
    rw [places.value, zpow_add₀ two_ne_zero, zpow_natCast]
    push_cast
    ring
  · refine .inr ⟨places.least.trans_lt fine, ?_⟩
    have small : (y : ℝ) ≤ ((2 ^ 52 * 2 ^ e : ℚ) : ℝ) := by exact_mod_cast places.le_of_finer fine
    rwa [Rat.cast_mul, Rat.cast_zpow, Rat.cast_pow, Rat.cast_ofNat] at small

end Representable

namespace HasEvenSignificand

variable {x y : ℚ} {k j e f : ℤ}

theorem neg (h : HasEvenSignificand x) : HasEvenSignificand (-x) := by
  obtain ⟨k, e, places, even, full⟩ := h
  exact ⟨-k, e, places.neg, even.neg, by rwa [abs_neg]⟩

theorem between_same_place (hx : Places k e x) (hy : Places j e y) (evenx : Even k) (eveny : Even j)
    (nonneg : 0 ≤ k) (less : k < j) : ∃ z, Representable z ∧ x < z ∧ z < y := by
  have bits := (le_abs_self _).trans hy.bits
  have step : k + 1 < j := by
    obtain ⟨k, rfl⟩ := evenx
    obtain ⟨j, rfl⟩ := eveny
    omega
  refine ⟨(k + 1 : ℤ) * 2 ^ e, ⟨_, e, ?_, hx.least, rfl⟩, ?_, ?_⟩
  · rw [abs_of_nonneg (by omega)]
    omega
  · rw [hx.value]
    gcongr
    omega
  · rw [hy.value]
    gcongr

theorem between_coarser (hx : Places k e x) (hy : Places j f y) (eveny : Even j) (coarser : e < f)
    (wide : 2 ^ 52 < j) : ∃ z, Representable z ∧ x < z ∧ z < y := by
  have bits := (le_abs_self _).trans hy.bits
  refine ⟨(j - 1 : ℤ) * 2 ^ f, ⟨_, f, ?_, hy.least, rfl⟩, ?_, ?_⟩
  · rw [abs_of_nonneg (by omega)]
    omega
  · refine (hx.le_of_finer coarser).trans_lt ?_
    have step : (2 ^ 52 : ℤ) < j - 1 := by
      obtain ⟨j, rfl⟩ := eveny
      omega
    gcongr
    exact_mod_cast step
  · rw [hy.value]
    gcongr
    omega

theorem between_nonneg (hx : HasEvenSignificand x) (hy : HasEvenSignificand y) (nonneg : 0 ≤ x)
    (less : x < y) : ∃ z, Representable z ∧ x < z ∧ z < y := by
  obtain ⟨k, e, hx, evenx, fullx⟩ := hx
  obtain ⟨j, f, hy, eveny, fully⟩ := hy
  have unit (e : ℤ) : (0 : ℚ) < 2 ^ e := by positivity
  have k_nonneg : 0 ≤ k := by
    rw [hx.value] at nonneg
    exact_mod_cast nonneg_of_mul_nonneg_left nonneg (unit e)
  have j_pos : 0 < j := by
    have pos := nonneg.trans_lt less
    rw [hy.value] at pos
    exact_mod_cast pos_of_mul_pos_left pos (unit f).le
  rw [abs_of_nonneg k_nonneg] at fullx
  rw [abs_of_pos j_pos] at fully
  obtain finer | rfl | coarser := lt_trichotomy e f
  · have full := fully.resolve_left (by have := hx.least; omega)
    obtain wide | edge := full.lt_or_eq
    · exact between_coarser hx hy eveny finer wide
    · -- the least significand, read as the most in the place below
      have edge_places : Places (2 ^ 53) (f - 1) y := by
        refine ⟨by decide, by have := hx.least; omega, ?_⟩
        rw [hy.value, ← edge, zpow_sub_one₀ two_ne_zero]
        push_cast
        ring
      obtain finer | rfl := (Int.le_sub_one_of_lt finer).lt_or_eq
      · exact between_coarser hx edge_places (by decide) finer (by decide)
      · refine between_same_place hx edge_places evenx (by decide) k_nonneg ?_
        rw [hx.value, edge_places.value] at less
        exact_mod_cast lt_of_mul_lt_mul_right less (unit _).le
  · rw [hx.value, hy.value] at less
    exact between_same_place hx hy evenx eveny k_nonneg
      (by exact_mod_cast lt_of_mul_lt_mul_right less (unit e).le)
  · have full := fullx.resolve_left (by have := hy.least; omega)
    have above : y ≤ x := by
      refine (hy.le_of_finer coarser).trans ?_
      rw [hx.value]
      gcongr
      exact_mod_cast full
    exact absurd less above.not_gt

/-- Two numbers with even significands are not next to each other. -/
theorem between (hx : HasEvenSignificand x) (hy : HasEvenSignificand y) (less : x < y) :
    ∃ z, Representable z ∧ x < z ∧ z < y := by
  obtain nonneg | negative := le_or_gt 0 x
  · exact between_nonneg hx hy nonneg less
  · obtain nonpos | positive := le_or_gt y 0
    · obtain ⟨z, number, above, below⟩ := between_nonneg hy.neg hx.neg (by linarith) (by linarith)
      exact ⟨-z, number.neg, by linarith, by linarith⟩
    · exact ⟨0, .zero, negative, positive⟩

end HasEvenSignificand

/-- A number is its own rounding. -/
theorem Representable.roundsTo {x : ℚ} (h : Representable x) : RoundsTo x x := by
  refine ⟨h, ?_, ?_⟩
  · intro y _
    rw [sub_self, abs_zero]
    exact abs_nonneg _
  · intro y _ other tie
    rw [sub_self, abs_zero, abs_eq_zero, sub_eq_zero] at tie
    exact absurd (by exact_mod_cast tie) other

namespace RoundsTo

variable {t : ℝ} {x y : ℚ}

theorem zero : RoundsTo 0 0 := by
  have itself := Representable.zero.roundsTo
  rwa [Rat.cast_zero] at itself

theorem neg (h : RoundsTo t x) : RoundsTo (-t) (-x) := by
  have mirror (z : ℚ) : |((-z : ℚ) : ℝ) - -t| = |(z : ℝ) - t| := by
    rw [← abs_neg]
    push_cast
    ring_nf
  have flip (z : ℚ) : |(z : ℝ) - -t| = |((-z : ℚ) : ℝ) - t| := by rw [← mirror, neg_neg]
  refine ⟨h.representable.neg, ?_, ?_⟩
  · intro y number
    rw [mirror, flip]
    exact h.nearest _ number.neg
  · intro y number other tie
    rw [mirror, flip] at tie
    exact (h.even _ number.neg (neg_eq_iff_eq_neg.not.mpr other) tie).neg

theorem eq_of_representable (h : RoundsTo (y : ℝ) x) (number : Representable y) : x = y := by
  have close := h.nearest y number
  rw [sub_self, abs_zero] at close
  exact_mod_cast sub_eq_zero.mp (abs_nonpos_iff.mp close)

theorem le_of_le (h : RoundsTo t x) (number : Representable y) (le : t ≤ y) : x ≤ y := by
  by_contra above
  have above : (y : ℝ) < x := by exact_mod_cast not_le.mp above
  have close := h.nearest y number
  rw [abs_of_nonneg (by linarith), abs_of_nonneg (by linarith)] at close
  linarith

/-- Rounding does not carry past a number. -/
theorem abs_le_of_abs_le (h : RoundsTo t x) (number : Representable y) (le : |t| ≤ y) : |x| ≤ y := by
  obtain ⟨lower, upper⟩ := abs_le.mp le
  have below := h.neg.le_of_le number (by linarith)
  exact abs_le.mpr ⟨by linarith, h.le_of_le number upper⟩

/-- There is one rounding: of two nearest numbers both would be even, and then one lies between. -/
theorem unique (h : RoundsTo t x) (h' : RoundsTo t y) : x = y := by
  by_contra other
  wlog less : x < y generalizing x y
  · exact this h' h (Ne.symm other) (lt_of_le_of_ne (not_lt.mp less) (Ne.symm other))
  have tie : |(x : ℝ) - t| = |(y : ℝ) - t| :=
    le_antisymm (h.nearest y h'.representable) (h'.nearest x h.representable)
  have even := h.even y h'.representable (Ne.symm other) tie.symm
  have even' := h'.even x h.representable other tie
  obtain ⟨z, number, above, below⟩ := even.between even' less
  have above : (x : ℝ) < z := by exact_mod_cast above
  have below : (z : ℝ) < y := by exact_mod_cast below
  have from_x := h.nearest z number
  have from_y := h'.nearest z number
  obtain left | right := le_total t z
  · rw [abs_of_nonneg (by linarith), abs_of_nonneg (by linarith)] at from_y
    linarith
  · rw [abs_of_nonpos (by linarith), abs_of_nonpos (by linarith)] at from_x
    linarith

/-- The error is at most half a unit in the last of 53 places, or half the least unit. -/
theorem error (h : RoundsTo t x) :
    |(x : ℝ) - t| ≤ 2 ^ (-53 : ℤ) * |t| ∨ |(x : ℝ) - t| ≤ 2 ^ (leastPlace - 1) := by
  wlog positive : 0 < t generalizing t x
  · obtain rfl | negative := (not_lt.mp positive).eq_or_lt
    · left
      simpa using h.nearest 0 .zero
    · have opposite := this h.neg (by linarith)
      rwa [Rat.cast_neg, neg_sub_neg, abs_neg, abs_sub_comm] at opposite
  have lower := Int.zpow_log_le_self Nat.one_lt_two positive
  have upper := Int.lt_zpow_succ_log_self Nat.one_lt_two t
  have place := LastPlace.of_log (by exact_mod_cast lower) (by exact_mod_cast upper)
  generalize max leastPlace (Int.log 2 t - 52) = e at place
  have unit : (0 : ℝ) < 2 ^ e := by positivity
  -- `t` lies between two numbers that are one unit apart
  have from_below : ⌊t / 2 ^ e⌋ * 2 ^ e ≤ t := (le_div_iff₀ unit).mp (Int.floor_le _)
  have from_above : t < (⌊t / 2 ^ e⌋ + 1) * 2 ^ e := (div_lt_iff₀ unit).mp (Int.lt_floor_add_one _)
  have nonneg : 0 ≤ ⌊t / 2 ^ e⌋ := Int.floor_nonneg.mpr (by positivity)
  have fits : ⌊t / 2 ^ e⌋ < 2 ^ 53 := by
    rw [Int.floor_lt, div_lt_iff₀ unit]
    exact_mod_cast place.upper
  generalize ⌊t / 2 ^ e⌋ = k at *
  have down := h.nearest (k * 2 ^ e) ⟨k, e, by rw [abs_of_nonneg nonneg]; omega, place.least, rfl⟩
  have up := h.nearest ((k + 1 : ℤ) * 2 ^ e)
    ⟨k + 1, e, by rw [abs_of_nonneg (by omega)]; omega, place.least, rfl⟩
  push_cast at down up
  rw [abs_of_nonpos (sub_nonpos.mpr from_below)] at down
  rw [abs_of_nonneg (sub_nonneg.mpr from_above.le)] at up
  have half : |(x : ℝ) - t| ≤ 2 ^ e / 2 := by linarith
  rw [abs_of_pos positive]
  obtain rfl | full := place.full
  · right
    rwa [zpow_sub_one₀ two_ne_zero, ← div_eq_mul_inv]
  · left
    norm_num at full ⊢
    linarith

end RoundsTo

/-! ### The nearest integer -/

/-- `u` is the integer nearest to `t`, a tie going to the even one. -/
structure NearestInteger (t : ℝ) (u : ℕ) : Prop where
  near : |(u : ℝ) - t| ≤ 1 / 2
  even : |(u : ℝ) - t| = 1 / 2 → Even u

namespace NearestInteger

variable {t : ℝ} {u s : ℕ}

/-- The choice between the integers around `t`, however its distance from the middle is told. -/
theorem of_middle {below above : Prop} [Decidable below] [Decidable above]
    (lower : s ≤ t) (upper : t < s + 1)
    (is_below : below ↔ t < s + 1 / 2) (is_above : above ↔ s + 1 / 2 < t) :
    NearestInteger t
      (if below then s else if above then s + 1 else if s % 2 = 0 then s else s + 1) := by
  have down : |(s : ℝ) - t| = t - s := by rw [abs_sub_comm, abs_of_nonneg (by linarith)]
  have up : |((s + 1 : ℕ) : ℝ) - t| = s + 1 - t := by
    push_cast
    exact abs_of_nonneg (by linarith)
  split_ifs with low high even
  · have low := is_below.mp low
    exact ⟨by linarith, fun tie => absurd tie (by linarith)⟩
  · have high := is_above.mp high
    exact ⟨by linarith, fun tie => absurd tie (by linarith)⟩
  · have high := not_lt.mp (is_above.not.mp high)
    exact ⟨by linarith, fun _ => Nat.even_iff.mpr even⟩
  · have low := not_lt.mp (is_below.not.mp low)
    refine ⟨by linarith, fun _ => Nat.even_add_one.mpr ?_⟩
    rwa [Nat.even_iff]

theorem apart (h : NearestInteger t u) {k : ℤ} (other : k ≠ u) : 1 / 2 ≤ |(k : ℝ) - t| := by
  have one : (1 : ℝ) ≤ |(k : ℝ) - u| := by
    exact_mod_cast Int.one_le_abs (sub_ne_zero.mpr other)
  have triangle := abs_sub_le (k : ℝ) t u
  rw [abs_sub_comm t] at triangle
  linarith [h.near]

theorem nearest (h : NearestInteger t u) (k : ℤ) : |(u : ℝ) - t| ≤ |(k : ℝ) - t| := by
  by_cases same : k = u
  · rw [same, Int.cast_natCast]
  · exact h.near.trans (h.apart same)

theorem even_of_tie (h : NearestInteger t u) {k : ℤ} (other : k ≠ u)
    (tie : |(k : ℝ) - t| = |(u : ℝ) - t|) : Even u :=
  h.even (le_antisymm h.near (tie ▸ h.apart other))

theorem le_of_le (h : NearestInteger t u) {n : ℕ} (le : t ≤ n) : u ≤ n := by
  have close := (abs_le.mp h.near).2
  have : (u : ℝ) < n + 1 := by linarith
  exact Nat.lt_succ_iff.mp (by exact_mod_cast this)

theorem le_of_ge (h : NearestInteger t u) {n : ℕ} (ge : n ≤ t) : n ≤ u := by
  have close := (abs_le.mp h.near).1
  have : (n : ℝ) < u + 1 := by linarith
  exact Nat.lt_succ_iff.mp (by exact_mod_cast this)

/-- A count of units in the last place, rounded, is a number rounded. -/
theorem roundsTo {e : ℤ} (h : NearestInteger (t / 2 ^ e) u) (place : LastPlace t e) :
    RoundsTo t (u * 2 ^ e) := by
  have unit : (0 : ℝ) < 2 ^ e := by positivity
  have scaled (k : ℝ) : |k * 2 ^ e - t| = |k - t / 2 ^ e| * 2 ^ e := by
    rw [← abs_of_pos unit, ← abs_mul, abs_of_pos unit, sub_mul, div_mul_cancel₀ t unit.ne']
  have nearest (k : ℤ) : |u * 2 ^ e - t| ≤ |k * 2 ^ e - t| := by
    rw [scaled, scaled]
    exact mul_le_mul_of_nonneg_right (h.nearest k) unit.le
  -- a number off the grid of these units is small, and then the grid has one that is closer
  have edge (small : leastPlace < e) : 2 ^ 52 * 2 ^ e ≤ t := place.full.resolve_left small.ne'
  have bits : |(u : ℤ)| ≤ 2 ^ 53 := by
    rw [Nat.abs_cast]
    exact_mod_cast h.le_of_le (n := 2 ^ 53) (by
      rw [div_le_iff₀ unit]
      exact_mod_cast place.upper.le)
  have places : Places u e (u * 2 ^ e) := ⟨bits, place.least, by rw [Int.cast_natCast]⟩
  refine ⟨⟨u, e, places⟩, ?_, ?_⟩
  · intro y number
    push_cast
    obtain ⟨k, on_grid⟩ | ⟨small, low⟩ := number.on_grid_or_small e
    · rw [on_grid]
      exact nearest k
    · have edge := edge small
      calc |u * 2 ^ e - t| ≤ |((2 ^ 52 : ℤ) : ℝ) * 2 ^ e - t| := nearest _
        _ = t - 2 ^ 52 * 2 ^ e := by push_cast; rw [abs_of_nonpos (by linarith)]; ring
        _ ≤ t - y := by linarith
        _ ≤ |y - t| := by rw [abs_sub_comm]; exact le_abs_self _
  · intro y number other tie
    push_cast at tie
    have on_grid : ∃ k : ℤ, (y : ℝ) = k * 2 ^ e := by
      obtain on_grid | ⟨small, low⟩ := number.on_grid_or_small e
      · exact on_grid
      · have edge := edge small
        have closer := nearest (2 ^ 52)
        push_cast at closer
        rw [← tie, abs_of_nonpos (by linarith), abs_of_nonpos (by linarith)] at closer
        exact ⟨2 ^ 52, by push_cast; linarith⟩
    obtain ⟨k, on_grid⟩ := on_grid
    have different : k ≠ u := by
      rintro rfl
      apply other
      have same : (y : ℝ) = ((u * 2 ^ e : ℚ) : ℝ) := by rw [on_grid]; push_cast; rfl
      exact_mod_cast same
    rw [on_grid, scaled, scaled] at tie
    have even := h.even_of_tie different (mul_right_cancel₀ unit.ne' tie)
    refine ⟨u, e, places, by exact_mod_cast even, place.full.imp_right ?_⟩
    intro full
    rw [Nat.abs_cast]
    exact_mod_cast h.le_of_ge (n := 2 ^ 52) (by
      rw [le_div_iff₀ unit]
      exact_mod_cast full)

end NearestInteger

/-! ### Rounding a quotient -/

theorem twoPow_eq (e : ℤ) : twoPow e = 2 ^ e := by
  unfold twoPow
  split_ifs with h
  · lift e to ℕ using h
    simp
  · obtain ⟨k, rfl⟩ : ∃ k : ℕ, e = -k := ⟨(-e).toNat, by omega⟩
    simp

theorem cast_pow_toNat (b : ℕ) {e : ℤ} (h : 0 ≤ e) : ((b ^ e.toNat : ℕ) : ℝ) = b ^ e := by
  lift e to ℕ using h
  simp

theorem roundHalfEven_nearest (n : ℕ) {d : ℕ} (pos : 0 < d) :
    NearestInteger (n / d) (roundHalfEven n d) := by
  have real : (0 : ℝ) < d := by exact_mod_cast pos
  have split : (n : ℝ) = d * (n / d : ℕ) + (n % d : ℕ) := by exact_mod_cast (Nat.div_add_mod n d).symm
  have small : ((n % d : ℕ) : ℝ) < d := by exact_mod_cast Nat.mod_lt n pos
  have value : (n : ℝ) / d = (n / d : ℕ) + (n % d : ℕ) / d := by rw [split]; field_simp
  refine .of_middle ?_ ?_ ?_ ?_
  · rw [value]
    exact le_add_of_nonneg_right (by positivity)
  · rw [value, add_lt_add_iff_left, div_lt_one real]
    exact small
  · rw [value, add_lt_add_iff_left, div_lt_div_iff₀ real two_pos, mul_comm, one_mul]
    exact_mod_cast Iff.rfl
  · rw [value, add_lt_add_iff_left, div_lt_div_iff₀ two_pos real, mul_comm _ (2 : ℝ), one_mul]
    exact_mod_cast Iff.rfl

theorem unitsOf_nearest (n : ℕ) {d : ℕ} (pos : 0 < d) (e : ℤ) :
    NearestInteger (n / d / 2 ^ e) (unitsOf n d e) := by
  simp only [unitsOf, Nat.pow_eq]
  split_ifs with h
  · have near := roundHalfEven_nearest n (Nat.mul_pos pos (Nat.pow_pos (n := e.toNat) two_pos))
    rwa [Nat.cast_mul, cast_pow_toNat 2 h, ← div_div] at near
  · have near := roundHalfEven_nearest (n * 2 ^ (-e).toNat) pos
    rwa [Nat.cast_mul, cast_pow_toNat 2 (by omega), Nat.cast_ofNat, zpow_neg, mul_div_right_comm,
      ← div_eq_mul_inv] at near

theorem two_zpow_le_div_iff (n : ℕ) {d : ℕ} (pos : 0 < d) (e : ℤ) :
    (2 : ℝ) ^ e ≤ n / d ↔ if 0 ≤ e then d * 2 ^ e.toNat ≤ n else d ≤ n * 2 ^ (-e).toNat := by
  have real : (0 : ℝ) < d := by exact_mod_cast pos
  rw [le_div_iff₀ real]
  split_ifs with h
  · rw [← Nat.cast_le (α := ℝ), Nat.cast_mul, cast_pow_toNat 2 h, mul_comm]
    rfl
  · rw [← Nat.cast_le (α := ℝ), Nat.cast_mul, cast_pow_toNat 2 (by omega), Nat.cast_ofNat, zpow_neg,
      ← div_eq_mul_inv, le_div_iff₀ (by positivity), mul_comm]

theorem two_zpow_log2_le {n : ℕ} (pos : 0 < n) : (2 : ℝ) ^ (Nat.log2 n : ℤ) ≤ n := by
  rw [zpow_natCast]
  exact_mod_cast Nat.log2_self_le pos.ne'

theorem lt_two_zpow_log2 (n : ℕ) : (n : ℝ) < 2 ^ (Nat.log2 n + 1 : ℤ) := by
  exact_mod_cast Nat.lt_log2_self

/-- The quotient lies between 2^52 and 2^53 of its units. -/
theorem lastPlace_log {n d : ℕ} (hn : 0 < n) (hd : 0 < d) :
    (2 : ℝ) ^ (lastPlace n d + 52) ≤ n / d ∧ (n : ℝ) / d < 2 ^ (lastPlace n d + 52 + 1) := by
  have real : (0 : ℝ) < d := by exact_mod_cast hd
  have reached := two_zpow_le_div_iff n hd (Nat.log2 n - Nat.log2 d)
  have lower : (2 : ℝ) ^ ((Nat.log2 n : ℤ) - Nat.log2 d - 1) ≤ n / d := by
    rw [le_div_iff₀ real]
    calc (2 : ℝ) ^ ((Nat.log2 n : ℤ) - Nat.log2 d - 1) * d
        ≤ 2 ^ ((Nat.log2 n : ℤ) - Nat.log2 d - 1) * 2 ^ (Nat.log2 d + 1 : ℤ) := by
          gcongr
          exact (lt_two_zpow_log2 d).le
      _ = 2 ^ (Nat.log2 n : ℤ) := by rw [← zpow_add₀ two_ne_zero]; congr 1; ring
      _ ≤ n := two_zpow_log2_le hn
  have upper : (n : ℝ) / d < 2 ^ ((Nat.log2 n : ℤ) - Nat.log2 d + 1) := by
    rw [div_lt_iff₀ real]
    calc (n : ℝ) < 2 ^ (Nat.log2 n + 1 : ℤ) := lt_two_zpow_log2 n
      _ = 2 ^ ((Nat.log2 n : ℤ) - Nat.log2 d + 1) * 2 ^ (Nat.log2 d : ℤ) := by
          rw [← zpow_add₀ two_ne_zero]; congr 1; ring
      _ ≤ 2 ^ ((Nat.log2 n : ℤ) - Nat.log2 d + 1) * d := by
          gcongr
          exact two_zpow_log2_le hd
  simp only [lastPlace, Nat.pow_eq, ← reached]
  split_ifs with h
  · rw [sub_add_cancel]
    exact ⟨h, upper⟩
  · rw [show ((Nat.log2 n : ℤ) - Nat.log2 d - 53 + 52) = Nat.log2 n - Nat.log2 d - 1 by ring,
      sub_add_cancel]
    exact ⟨lower, not_le.mp h⟩

theorem nearestQuotient_roundsTo (n : ℕ) {d : ℕ} (pos : 0 < d) :
    RoundsTo (n / d) (nearestQuotient n d) := by
  unfold nearestQuotient
  split_ifs with zero
  · subst zero
    rw [Nat.cast_zero, zero_div]
    exact .zero
  · obtain ⟨lower, upper⟩ := lastPlace_log (Nat.pos_of_ne_zero zero) pos
    have place := LastPlace.of_log lower upper
    rw [add_sub_cancel_right] at place
    simp only [twoPow_eq]
    exact (unitsOf_nearest n pos _).roundsTo place

/-- Rounding a rational is correct. -/
theorem nearest_roundsTo (q : ℚ) : RoundsTo q (nearest q) := by
  have magnitude := nearestQuotient_roundsTo q.num.natAbs q.den_pos
  have value : ((q.num.natAbs : ℕ) : ℝ) / q.den = |(q : ℝ)| := by
    rw [Nat.cast_natAbs, Int.cast_abs, Rat.cast_def, abs_div, Nat.abs_cast]
  rw [value] at magnitude
  unfold nearest
  split_ifs with negative
  · rw [abs_of_neg (by exact_mod_cast negative)] at magnitude
    simpa using magnitude.neg
  · rwa [abs_of_nonneg (by exact_mod_cast not_lt.mp negative)] at magnitude

theorem nearest_of_representable {x : ℚ} (number : Representable x) : nearest x = x :=
  (nearest_roundsTo x).eq_of_representable number

end TapeChain.Number
