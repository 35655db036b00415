import Mathlib.Algebra.Order.BigOperators.Group.List
import TapeChain.Bench
import TapeChain.Proofs.SquareRoot

/-! Taking outliers out of the samples. Some sample always lies within two deviations of the mean, also
when mean, deviation and differences are rounded: the rounded mean is off by less than the least
deviation that integers can have. So the statistics of the samples that are kept have a sample. -/
namespace TapeChain.Bench
open Number

/-! ### Removing samples one by one -/

/-- Takes out the first occurrence of a sample; there has to be one. -/
def remove? (samples : List Int) (s : Int) : Option (List Int) :=
  if s ∈ samples then some (samples.erase s) else none

theorem remove?_append_cons {front rest : List Int} {s : Int} (first : s ∉ front) :
    remove? (front ++ s :: rest) s = some (front ++ rest) := by
  rw [remove?, if_pos (List.mem_append_right _ List.mem_cons_self),
    List.erase_append_right _ first, List.erase_cons_head]

/-- Removing what a test picks out leaves the rest in order. Behind the samples that have been passed
over, the first occurrence of the next pick is the pick itself. -/
theorem foldlM_remove?_filter (p : Int → Bool) (samples : List Int) {front : List Int}
    (passed : ∀ s ∈ front, p s = false) :
    (samples.filter p).foldlM remove? (front ++ samples) =
      some (front ++ samples.filter fun s => !p s) := by
  induction samples generalizing front with
  | nil => rfl
  | cons s rest ih =>
      cases picked : p s with
      | true =>
          have first : s ∉ front := by
            intro mem
            rw [passed s mem] at picked
            cases picked
          rw [List.filter_cons_of_pos picked, List.foldlM_cons, remove?_append_cons first,
            List.filter_cons_of_neg (by rw [picked]; decide)]
          exact ih passed
      | false =>
          have passed : ∀ r ∈ front ++ [s], p r = false := by
            intro r mem
            obtain mem | mem := List.mem_append.mp mem
            · exact passed r mem
            · rwa [List.mem_singleton.mp mem]
          rw [List.filter_cons_of_neg (by rw [picked]; decide),
            List.filter_cons_of_pos (by rw [picked]; rfl), List.append_cons, ih passed,
            List.append_assoc]
          rfl

theorem trim_of_foldlM_remove? {flagged samples kept : List Int}
    (h : flagged.foldlM remove? samples = some kept) : trim samples flagged = kept := by
  induction flagged generalizing samples with
  | nil => exact Option.some.inj h
  | cons s flagged ih =>
      rw [List.foldlM_cons, remove?] at h
      split_ifs at h with mem
      · exact ih h
      · cases h

/-! ### Mean and variance -/

noncomputable def average (samples : List Int) : ℝ := samples.sum / samples.length

/-- The population variance: the mean square of the differences from the average. -/
noncomputable def spread (samples : List Int) : ℝ :=
  (samples.map fun s : ℤ => ((s : ℝ) - average samples) ^ 2).sum / samples.length

variable {samples : List Int}

theorem length_pos (nonempty : samples ≠ []) : (0 : ℝ) < samples.length := by
  exact_mod_cast List.length_pos_iff.mpr nonempty

theorem sum_sq_sub (samples : List Int) (m : ℝ) :
    (samples.map fun s : ℤ => ((s : ℝ) - m) ^ 2).sum =
      ((samples.map fun s => s * s).sum : ℤ) - 2 * m * (samples.sum : ℤ) + samples.length * m ^ 2 := by
  induction samples with
  | nil => simp
  | cons s samples ih =>
      simp only [List.map_cons, List.sum_cons, ih, List.length_cons, Int.cast_add, Int.cast_mul,
        Nat.cast_add, Nat.cast_one]
      ring

theorem spread_eq (nonempty : samples ≠ []) :
    spread samples = ((samples.length * (samples.map fun s => s * s).sum -
      samples.sum * samples.sum : ℤ) : ℝ) / (samples.length * samples.length) := by
  have pos := length_pos nonempty
  simp only [spread, sum_sq_sub, average, Int.cast_sub, Int.cast_mul, Int.cast_natCast]
  field_simp
  ring

/-- The squares of the differences from any value, by the variance and the distance from the mean. -/
theorem sum_sq_sub_eq_spread (nonempty : samples ≠ []) (m : ℝ) :
    (samples.map fun s : ℤ => ((s : ℝ) - m) ^ 2).sum =
      samples.length * (spread samples + (m - average samples) ^ 2) := by
  have pos := length_pos nonempty
  simp only [spread_eq nonempty, sum_sq_sub, average, Int.cast_sub, Int.cast_mul, Int.cast_natCast]
  field_simp
  ring

theorem cast_variance (nonempty : samples ≠ []) : (variance samples : ℝ) = spread samples := by
  have total : samples.foldl (· + ·) 0 = samples.sum := List.sum_eq_foldl.symm
  have squares : samples.foldl (fun t s => t + s * s) 0 = (samples.map fun s => s * s).sum := by
    rw [List.sum_eq_foldl, List.foldl_map]
  rw [spread_eq nonempty, variance, total, squares, Rat.cast_div, Rat.cast_intCast, Rat.cast_natCast,
    Nat.cast_mul]

theorem sq_sub_nonneg (samples : List Int) (m : ℝ) :
    ∀ x ∈ samples.map fun s : ℤ => ((s : ℝ) - m) ^ 2, 0 ≤ x := by
  intro x mem
  obtain ⟨s, -, rfl⟩ := List.mem_map.mp mem
  exact sq_nonneg _

theorem spread_nonneg (samples : List Int) : 0 ≤ spread samples :=
  div_nonneg (List.sum_nonneg (sq_sub_nonneg samples _)) (Nat.cast_nonneg _)

/-- Integers that differ have at least this variance. -/
theorem spread_eq_zero_or_ge (nonempty : samples ≠ []) :
    spread samples = 0 ∨ (1 / samples.length) ^ 2 ≤ spread samples := by
  have pos := length_pos nonempty
  have nonneg := spread_nonneg samples
  rw [spread_eq nonempty] at *
  generalize (samples.length * (samples.map fun s => s * s).sum - samples.sum * samples.sum : ℤ) = k at *
  obtain rfl | positive : k = 0 ∨ 1 ≤ k := by
    have : (0 : ℝ) ≤ k := by
      rwa [le_div_iff₀ (by positivity), zero_mul] at nonneg
    have : 0 ≤ k := by exact_mod_cast this
    omega
  · left
    simp
  · right
    rw [div_pow, one_pow, sq]
    gcongr
    exact_mod_cast positive

theorem eq_average_of_spread_eq_zero (nonempty : samples ≠ []) (zero : spread samples = 0) {s : Int}
    (mem : s ∈ samples) : (s : ℝ) = average samples := by
  have total := sum_sq_sub_eq_spread nonempty (average samples)
  rw [zero, sub_self] at total
  have square := List.all_zero_of_le_zero_le_of_sum_eq_zero (sq_sub_nonneg samples _)
    (by simpa using total) (List.mem_map_of_mem mem)
  exact sub_eq_zero.mp (sq_eq_zero_iff.mp square)

/-! ### The statistics with their roundings -/

/-- Mean and deviation of the samples, each rounded once. -/
structure Describes (samples : List Int) (mean deviation : ℚ) : Prop where
  mean : RoundsTo (average samples) mean
  deviation : RoundsTo √(spread samples) deviation

/-- The samples and the sum of all of them need no rounding. -/
def Exact (samples : List Int) : Prop := ∀ s ∈ samples, samples.length * |s| ≤ 2 ^ 53

namespace Exact

theorem abs_sample_le (h : Exact samples) {s : Int} (mem : s ∈ samples) : |s| ≤ 2 ^ 53 := by
  have one : (1 : ℤ) ≤ samples.length := by exact_mod_cast List.length_pos_of_mem mem
  exact (le_mul_of_one_le_left (abs_nonneg s) one).trans (h s mem)

theorem representable (h : Exact samples) {s : Int} (mem : s ∈ samples) : Representable s :=
  .intCast (h.abs_sample_le mem)

theorem mul_abs_sum_le {n bound : ℤ} (nonneg : 0 ≤ n) (h : ∀ s ∈ samples, n * |s| ≤ bound) :
    n * |samples.sum| ≤ samples.length * bound := by
  induction samples with
  | nil => simp
  | cons s samples ih =>
      obtain ⟨here, others⟩ := List.forall_mem_cons.mp h
      rw [List.sum_cons, List.length_cons]
      calc n * |s + samples.sum| ≤ n * (|s| + |samples.sum|) := by gcongr; exact abs_add_le _ _
        _ ≤ bound + samples.length * bound := by linarith [ih others]
        _ = ((samples.length + 1 : ℕ) : ℤ) * bound := by push_cast; ring

theorem abs_sum_le (h : Exact samples) (nonempty : samples ≠ []) : |samples.sum| ≤ 2 ^ 53 := by
  have pos : (0 : ℤ) < samples.length := by exact_mod_cast List.length_pos_iff.mpr nonempty
  exact le_of_mul_le_mul_left (mul_abs_sum_le pos.le h) pos

theorem of_sublist {kept : List Int} (h : Exact samples) (sub : kept.Sublist samples) : Exact kept := by
  intro s mem
  have shorter : (kept.length : ℤ) ≤ samples.length := by exact_mod_cast sub.length_le
  exact (mul_le_mul_of_nonneg_right shorter (abs_nonneg s)).trans (h s (sub.subset mem))

theorem foldl_nearest (h : ∀ s ∈ samples, Representable s) (t : ℚ) :
    samples.foldl (fun (t : ℚ) (s : ℤ) => t + nearest s) t = t + samples.sum := by
  induction samples generalizing t with
  | nil => simp
  | cons s samples ih =>
      obtain ⟨here, others⟩ := List.forall_mem_cons.mp h
      rw [List.foldl_cons, ih others, nearest_of_representable here, List.sum_cons, Int.cast_add,
        add_assoc]

theorem mean_eq (h : Exact samples) (nonempty : samples ≠ []) :
    Bench.mean samples = .ok (nearest (samples.sum / samples.length)) := by
  have total : Representable samples.sum := .intCast (h.abs_sum_le nonempty)
  rw [Bench.mean, if_neg nonempty, foldl_nearest (fun s mem => h.representable mem), zero_add]
  simp only [nearest_of_representable total]

theorem describes (h : Exact samples) (nonempty : samples ≠ []) :
    ∃ mean, Bench.mean samples = .ok mean ∧ Describes samples mean (deviation samples) := by
  refine ⟨_, h.mean_eq nonempty, ?_, ?_⟩
  · have rounds := nearest_roundsTo (samples.sum / samples.length)
    rwa [Rat.cast_div, Rat.cast_intCast, Rat.cast_natCast] at rounds
  · have nonneg : 0 ≤ variance samples := by
      have real := spread_nonneg samples
      rw [← cast_variance nonempty] at real
      exact_mod_cast real
    rw [← cast_variance nonempty]
    exact nearestRoot_roundsTo nonneg

/-- Samples that differ are not all zero, so there are not too many of them. -/
theorem length_le (h : Exact samples) (nonempty : samples ≠ []) (differ : spread samples ≠ 0) :
    (samples.length : ℝ) ≤ 2 ^ 53 := by
  obtain ⟨s, mem, nonzero⟩ : ∃ s ∈ samples, s ≠ 0 := by
    by_contra none
    push Not at none
    have squares : (samples.map fun s : ℤ => ((s : ℝ) - 0) ^ 2).sum = 0 := by
      apply List.sum_eq_zero
      intro x square
      obtain ⟨s, mem, rfl⟩ := List.mem_map.mp square
      simp [none s mem]
    rw [sum_sq_sub_eq_spread nonempty, mul_eq_zero_iff_left (length_pos nonempty).ne'] at squares
    have := sq_nonneg (0 - average samples)
    exact differ (le_antisymm (by linarith) (spread_nonneg samples))
  have bound : (samples.length : ℤ) ≤ 2 ^ 53 :=
    (le_mul_of_one_le_right (by positivity) (Int.one_le_abs nonzero)).trans (h s mem)
  exact_mod_cast bound

/-- So the least deviation that they can have is far above the least number. -/
theorem two_zpow_le_inv_length (h : Exact samples) (nonempty : samples ≠ [])
    (differ : spread samples ≠ 0) : (2 : ℝ) ^ (-53 : ℤ) ≤ 1 / samples.length := by
  rw [zpow_neg, ← one_div]
  exact one_div_le_one_div_of_le (length_pos nonempty) (h.length_le nonempty differ)

theorem two_zpow_leastPlace_le : (2 : ℝ) ^ (leastPlace - 1) ≤ 2 ^ (-53 : ℤ) / 4 := by
  calc (2 : ℝ) ^ (leastPlace - 1) ≤ 2 ^ (-53 - 2 : ℤ) := zpow_le_zpow_right₀ one_le_two (by decide)
    _ = 2 ^ (-53 : ℤ) / 4 := by rw [zpow_sub₀ two_ne_zero]; norm_num

/-- The rounded mean is no further from the mean than the deviation. -/
theorem sq_mean_sub_le (h : Exact samples) (nonempty : samples ≠ []) {m : ℚ}
    (rounds : RoundsTo (average samples) m) : ((m : ℝ) - average samples) ^ 2 ≤ spread samples := by
  have pos := length_pos nonempty
  by_cases zero : spread samples = 0
  · -- all samples are equal, and the mean is one of them
    obtain ⟨s, mem⟩ := List.exists_mem_of_ne_nil samples nonempty
    have same := eq_average_of_spread_eq_zero nonempty zero mem
    rw [← same, ← Rat.cast_intCast] at rounds
    rw [rounds.eq_of_representable (h.representable mem), ← same, zero]
    simp
  · refine le_trans ?_ ((spread_eq_zero_or_ge nonempty).resolve_left zero)
    rw [sq_le_sq, abs_of_pos (one_div_pos.mpr pos)]
    have unit := h.two_zpow_le_inv_length nonempty zero
    obtain relative | absolute := rounds.error
    · have total : |(samples.sum : ℝ)| ≤ 2 ^ 53 := by exact_mod_cast h.abs_sum_le nonempty
      calc |(m : ℝ) - average samples| ≤ 2 ^ (-53 : ℤ) * |average samples| := relative
        _ = 2 ^ (-53 : ℤ) * (|(samples.sum : ℝ)| / samples.length) := by
            rw [average, abs_div, Nat.abs_cast]
        _ ≤ 2 ^ (-53 : ℤ) * (2 ^ 53 / samples.length) := by gcongr
        _ = 1 / samples.length := by rw [zpow_neg]; field_simp
    · have := two_zpow_leastPlace_le
      linarith

/-- Rounding takes little from the deviation. -/
theorem spread_le (h : Exact samples) (nonempty : samples ≠ []) {d : ℚ}
    (rounds : RoundsTo √(spread samples) d) : spread samples ≤ 2 * (d : ℝ) ^ 2 := by
  by_cases zero : spread samples = 0
  · rw [zero]
    positivity
  · have least := (spread_eq_zero_or_ge nonempty).resolve_left zero
    have root := Real.sq_sqrt (spread_nonneg samples)
    have unit := (h.two_zpow_le_inv_length nonempty zero).trans (Real.le_sqrt_of_sq_le least)
    have close : |(d : ℝ) - √(spread samples)| ≤ √(spread samples) / 4 := by
      obtain relative | absolute := rounds.error
      · rw [abs_of_nonneg (Real.sqrt_nonneg _)] at relative
        norm_num at relative
        linarith [Real.sqrt_nonneg (spread samples)]
      · calc |(d : ℝ) - √(spread samples)| ≤ 2 ^ (-53 : ℤ) / 4 :=
              absolute.trans two_zpow_leastPlace_le
          _ ≤ √(spread samples) / 4 := by gcongr
    generalize √(spread samples) = σ at *
    have low := (abs_le.mp close).1
    have positive : 0 < σ := lt_of_lt_of_le (by positivity) unit
    rw [← root]
    nlinarith

/-- Some sample lies within two deviations of the mean: otherwise the mean square of the distances
would be more than four times the variance. -/
theorem exists_close (h : Exact samples) (nonempty : samples ≠ []) {m d : ℚ}
    (describes : Describes samples m d) : ∃ s ∈ samples, |(s : ℝ) - m| ≤ 2 * d := by
  have nonneg : (0 : ℝ) ≤ d := by
    have below := describes.deviation.neg.le_of_le .zero (by simp)
    exact_mod_cast neg_nonpos.mp below
  have total : (samples.map fun s : ℤ => ((s : ℝ) - m) ^ 2).sum ≤
      (samples.map fun _ => (2 * (d : ℝ)) ^ 2).sum := by
    rw [sum_sq_sub_eq_spread nonempty, List.map_const', List.sum_replicate, nsmul_eq_mul]
    refine mul_le_mul_of_nonneg_left ?_ (length_pos nonempty).le
    calc spread samples + ((m : ℝ) - average samples) ^ 2 ≤ spread samples + spread samples := by
          gcongr
          exact h.sq_mean_sub_le nonempty describes.mean
      _ ≤ (2 * (d : ℝ)) ^ 2 := by linarith [h.spread_le nonempty describes.deviation]
  obtain ⟨s, mem, close⟩ := List.exists_le_of_sum_le nonempty _ _ total
  exact ⟨s, mem, abs_le_of_sq_le_sq close (by positivity)⟩

end Exact

/-! ### Outliers -/

/-- The rounded difference from the mean is more than two deviations. -/
def Outlies (mean deviation : ℚ) (s : Int) : Prop :=
  ∃ d, RoundsTo (s - mean) d ∧ 2 * deviation < |d|

theorem outlies_iff {mean deviation : ℚ} {s : Int} :
    Outlies mean deviation s ↔ 2 * deviation < |nearest (s - mean)| := by
  have rounds := nearest_roundsTo (s - mean)
  rw [Rat.cast_sub, Rat.cast_intCast] at rounds
  constructor
  · rintro ⟨d, other, far⟩
    rwa [rounds.unique other]
  · intro far
    exact ⟨_, rounds, far⟩

instance (mean deviation : ℚ) (s : Int) : Decidable (Outlies mean deviation s) :=
  decidable_of_iff' _ outlies_iff

/-- Rounding the difference makes no outlier: two deviations are a number. -/
theorem not_outlies_of_close {mean deviation : ℚ} {s : Int} (number : Representable deviation)
    (close : |(s : ℝ) - mean| ≤ 2 * deviation) : ¬ Outlies mean deviation s := by
  rintro ⟨d, rounds, far⟩
  have near := rounds.abs_le_of_abs_le number.two_mul (by exact_mod_cast close)
  exact absurd far near.not_gt

theorem outliers_eq {mean : ℚ} (h : Exact samples) (known : Bench.mean samples = .ok mean) :
    outliers samples = .ok (samples.filter fun s => Outlies mean (deviation samples) s) := by
  have size (d : ℚ) : (if d < 0 then -d else d) = |d| := by
    split_ifs with negative
    · exact (abs_of_neg negative).symm
    · exact (abs_of_nonneg (not_lt.mp negative)).symm
  rw [outliers, known]
  refine congrArg Except.ok (List.filter_congr ?_)
  intro s mem
  simp only [size, nearest_of_representable (h.representable mem), outlies_iff]

/-- Trimming takes out the outliers, each where it is found, and nothing else; it leaves samples for
the mean and the deviation after it. -/
theorem trimming_keeps_samples (samples : List Int) (nonempty : samples ≠ [])
    (bounded : ∀ s ∈ samples, samples.length * |s| ≤ 2 ^ 53) :
    ∃ mean flagged kept, Bench.mean samples = .ok mean ∧
      Describes samples mean (deviation samples) ∧ outliers samples = .ok flagged ∧
      flagged = samples.filter (fun s => Outlies mean (deviation samples) s) ∧
      (∃ s ∈ samples, s ∉ flagged) ∧
      flagged.foldlM remove? samples = some kept ∧ trim samples flagged = kept ∧
      kept = samples.filter (fun s => ¬ Outlies mean (deviation samples) s) ∧ kept ≠ [] ∧
      ∃ final, Bench.mean kept = .ok final ∧ Describes kept final (deviation kept) := by
  have small : Exact samples := bounded
  obtain ⟨mean, known, describes⟩ := small.describes nonempty
  obtain ⟨s, mem, close⟩ := small.exists_close nonempty describes
  have spared := not_outlies_of_close describes.deviation.representable close
  have removed := foldlM_remove?_filter (fun s => Outlies mean (deviation samples) s) samples
    (List.forall_mem_nil _)
  simp only [List.nil_append, ← decide_not] at removed
  have kept : samples.filter (fun s => ¬ Outlies mean (deviation samples) s) ≠ [] :=
    List.ne_nil_of_mem (List.mem_filter.mpr ⟨mem, decide_eq_true spared⟩)
  refine ⟨mean, _, _, known, describes, outliers_eq small known, rfl, ⟨s, mem, ?_⟩, removed,
    trim_of_foldlM_remove? removed, rfl, kept, ?_⟩
  · intro flagged
    exact spared (of_decide_eq_true (List.mem_filter.mp flagged).2)
  · exact (small.of_sublist List.filter_sublist).describes kept

/-- Six large samples, one of them less by one. Their mean ends in 5/6 and is rounded to 3/4. -/
def nearlyEqual : List Int :=
  [1501199875790165, 1501199875790165, 1501199875790164, 1501199875790165, 1501199875790165,
    1501199875790165]

theorem nearlyEqual_trimmed :
    (∀ s ∈ nearlyEqual, nearlyEqual.length * |s| ≤ 2 ^ 53) ∧
      Bench.mean nearlyEqual = .ok (1501199875790164 + 3 / 4) ∧
      outliers nearlyEqual = .ok [1501199875790164] ∧
      ∃ kept, [1501199875790164].foldlM remove? nearlyEqual = some kept ∧ kept ≠ [] ∧
        ∃ final, Bench.mean kept = .ok final ∧ Describes kept final (deviation kept) := by
  obtain ⟨mean, flagged, kept, -, -, found, -, -, removed, -, -, left, final⟩ :=
    trimming_keeps_samples nearlyEqual (by decide) (by decide)
  have lone : outliers nearlyEqual = .ok [1501199875790164] := by decide +kernel
  obtain rfl := Except.ok.inj (found.symm.trans lone)
  exact ⟨by decide, by decide +kernel, lone, kept, removed, left, final⟩

end TapeChain.Bench
