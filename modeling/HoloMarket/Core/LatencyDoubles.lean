import Mathlib.Algebra.Order.Floor.Semifield
import HoloMarket.Core.LatencyTrace
import HoloMarket.Lib.DoubleRounding

/-!
# LatencyDoubles: percentiles in double precision

The index of a percentile is cut off the product of the sample count and the percentile,
both doubles, and the product is rounded.  It stays below the count, and can only miss the
exact index by rounding up to the next integer; for the three percentiles of the dump, and
any number of samples up to `2 ^ 40`, it is the exact one.
-/

namespace HoloMarket
namespace LatencyHistogram

open DoubleRounding

/-! ## Indices -/

theorem toUInt64_mul_lt {n : Nat} (hn : 0 < n) {d : Double} (hd : d.val < 1) :
    ((n : Double) * d).toUInt64 < n :=
  (Nat.floor_lt' (Nat.ne_of_gt hn)).mpr (Double.natCast_mul_lt hn hd)

theorem toUInt64_mul_mono (n : Nat) {d e : Double} (hde : d.val ≤ e.val) :
    ((n : Double) * d).toUInt64 ≤ ((n : Double) * e).toUInt64 :=
  Nat.floor_mono (roundDouble_mono (mul_le_mul_of_nonneg_left hde (n : Double).nonneg))

/-- The index is the exact one, unless the product is rounded up to the next integer. -/
theorem toUInt64_mul_eq {n : Nat} (hn : n ≤ 2 ^ 53) {d : Double} (hd : d.val < 1) :
    ((n : Double) * d).toUInt64 =
      if roundDouble (n * d.val) = ⌊n * d.val⌋₊ + 1 then ⌊n * d.val⌋₊ + 1 else ⌊n * d.val⌋₊ := by
  show ⌊((n : Double) * d).val⌋₊ = _
  rw [Double.val_mul, Double.val_natCast, roundDouble_natCast hn]
  rcases Nat.eq_zero_or_pos n with rfl | hpos
  · rw [Nat.cast_zero, zero_mul]
    exact floor_roundDouble_eq (le_refl 0) (by norm_num)
  · refine floor_roundDouble_eq (mul_nonneg (Nat.cast_nonneg n) d.nonneg) ?_
    calc (n : ℚ) * d.val < n * 1 := mul_lt_mul_of_pos_left hd (by exact_mod_cast hpos)
      _ ≤ 2 ^ 53 := by
          rw [mul_one]
          exact_mod_cast hn

/-- A double close to a fraction of small denominator gives the index of the fraction. -/
theorem toUInt64_mul_fraction {n a q : Nat} (hn : n ≤ 2 ^ 40) (ha : 0 < a) (haq : a ≤ q)
    (hq : q ≤ 100) {d : Double} (hd : |d.val - a / q| ≤ a / q / 2 ^ 55) :
    ((n : Double) * d).toUInt64 = n * a / q := by
  have hround : roundDouble (n : ℚ) = n := roundDouble_natCast (Nat.le_trans hn (by decide))
  have hqpos : (0 : ℚ) < q := by exact_mod_cast Nat.lt_of_lt_of_le ha haq
  have hp : (0 : ℚ) < a / q := div_pos (by exact_mod_cast ha) hqpos
  have hp' : (a : ℚ) / q ≤ 1 := (div_le_one hqpos).mpr (by exact_mod_cast haq)
  rw [← Nat.floor_div_eq_div (n * a) q (K := ℚ), Nat.cast_mul, mul_div_assoc]
  show ⌊((n : Double) * d).val⌋₊ = ⌊(n : ℚ) * (a / q)⌋₊
  rw [Double.val_mul, Double.val_natCast, hround]
  rcases Nat.eq_zero_or_pos n with rfl | hpos
  · rw [Nat.cast_zero, zero_mul, zero_mul, roundDouble_zero]
  · have hpos' : (0 : ℚ) < n := by exact_mod_cast hpos
    have hn' : (n : ℚ) ≤ 2 ^ 40 := by exact_mod_cast hn
    refine floor_roundDouble (Nat.lt_of_lt_of_le ha haq) hq (mul_pos hpos' hp) ?_ ?_ ?_
    · calc (n : ℚ) * (a / q) ≤ n * 1 := mul_le_mul_of_nonneg_left hp' hpos'.le
        _ ≤ 2 ^ 40 := by rwa [mul_one]
    · refine ⟨n * a, ?_⟩
      rw [mul_assoc, div_mul_cancel₀ _ hqpos.ne', Nat.cast_mul]
    · calc |(n : ℚ) * d.val - n * (a / q)| = n * |d.val - a / q| := by
            rw [← mul_sub, abs_mul, abs_of_pos hpos']
        _ ≤ n * (a / q / 2 ^ 55) := mul_le_mul_of_nonneg_left hd hpos'.le
        _ = n * (a / q) / 2 ^ 55 := by ring

/-! ## Percentiles -/

theorem val_dumped : (0.50 : Double).val ≤ (0.90 : Double).val ∧
    (0.90 : Double).val ≤ (0.99 : Double).val ∧ (0.99 : Double).val < 1 := by
  decide +kernel

theorem toUInt64_dumped {n : Nat} (hn : n ≤ 2 ^ 40) :
    ((n : Double) * 0.50).toUInt64 = n * 50 / 100 ∧
    ((n : Double) * 0.90).toUInt64 = n * 90 / 100 ∧
    ((n : Double) * 0.99).toUInt64 = n * 99 / 100 :=
  ⟨toUInt64_mul_fraction hn (by decide) (by decide) (by decide) (by decide +kernel),
    toUInt64_mul_fraction hn (by decide) (by decide) (by decide) (by decide +kernel),
    toUInt64_mul_fraction hn (by decide) (by decide) (by decide) (by decide +kernel)⟩

/-- What a thread has recorded for a stage since the last dump, a percentile brackets to
within a factor of two: it is a power of two, and the sample at its index of the sorted
samples lies between it and its double.  The index is that of the product of doubles.  The
line that the dump prints is increasing. -/
theorem percentiles_bracket (calls : List Call) {stage : Stage} (hstage : stage ≠ .count)
    (hne : recorded calls stage ≠ [])
    (hns : ∀ ns ∈ recorded calls stage, 1 ≤ ns ∧ ns < 2 ^ 40) :
    let h := run Double.toUInt64 calls
    let samples := recorded calls stage
    let n := samples.length
    h.count stage = n ∧
    (∀ d : Double, d.val < 1 →
      ((n : Double) * d).toUInt64 < n ∧
      ∃ b x, (samples.insertionSort (· ≤ ·))[((n : Double) * d).toUInt64]? = some x ∧
        h.percentileNs Double.toUInt64 stage n d = 2 ^ b ∧ 2 ^ b ≤ x ∧ x < 2 * 2 ^ b) ∧
    (n ≤ 2 ^ 53 → ∀ d : Double, d.val < 1 → ((n : Double) * d).toUInt64 =
      if roundDouble (n * d.val) = ⌊n * d.val⌋₊ + 1 then ⌊n * d.val⌋₊ + 1 else ⌊n * d.val⌋₊) ∧
    (n ≤ 2 ^ 40 → ((n : Double) * 0.50).toUInt64 = n * 50 / 100 ∧
      ((n : Double) * 0.90).toUInt64 = n * 90 / 100 ∧
      ((n : Double) * 0.99).toUInt64 = n * 99 / 100) ∧
    h.line Double.toUInt64 stage ∈ (h.dump Double.toUInt64).1 ∧
    (h.line Double.toUInt64 stage).p50 ≤ (h.line Double.toUInt64 stage).p90 ∧
    (h.line Double.toUInt64 stage).p90 ≤ (h.line Double.toUInt64 stage).p99 ∧
    (h.line Double.toUInt64 stage).p99 ≤ (h.line Double.toUInt64 stage).max := by
  intro h samples n
  have hholds : h.Holds stage samples := holds_run Double.toUInt64 calls hstage
  have hcount : h.count stage = n := hholds.count
  have hpos : 0 < n := List.length_pos_iff.mpr hne
  obtain ⟨h5090, h9099, h99⟩ := val_dumped
  refine ⟨hcount, fun d hd => ⟨toUInt64_mul_lt hpos hd, ?_⟩, fun hn d hd => toUInt64_mul_eq hn hd,
    fun hn => toUInt64_dumped hn, ?_, ?_, ?_, ?_⟩
  · obtain ⟨x, hmem, hx, hdx⟩ := hholds.exists_sample (toUInt64_mul_lt hpos hd)
    exact ⟨bucketFor x, x, hx, hdx, bucketFor_bounds (hns x hmem).1 (hns x hmem).2⟩
  · rw [dump_lines]
    refine List.mem_map.mpr ⟨stage, ?_, rfl⟩
    rw [List.mem_filter]
    exact ⟨mem_stages hstage, decide_eq_true (hcount ▸ hpos.ne')⟩
  · unfold line
    rw [hcount]
    exact hholds.percentileNs_mono (toUInt64_mul_mono n h5090)
      (toUInt64_mul_lt hpos (h9099.trans_lt h99))
  · unfold line
    rw [hcount]
    exact hholds.percentileNs_mono (toUInt64_mul_mono n h9099) (toUInt64_mul_lt hpos h99)
  · unfold line
    rw [hcount]
    exact hholds.percentileNs_le_max hns (toUInt64_mul_lt hpos h99)

/-- One sample before a dump and three after it. -/
def fourSamples : List Call :=
  [.record .gpuRunOnce 7, .dump, .record .gpuRunOnce 1500, .record .gpuRunOnce 3,
    .record .gpuRunOnce 700]

theorem percentiles_bracket_three :
    (run Double.toUInt64 fourSamples).count .gpuRunOnce = 3 ∧
    ∃ b x, [3, 700, 1500][(((3 : Nat) : Double) * 0.50).toUInt64]? = some x ∧
      (run Double.toUInt64 fourSamples).percentileNs Double.toUInt64 .gpuRunOnce 3
        (0.50 : Double) = 2 ^ b ∧
      2 ^ b ≤ x ∧ x < 2 * 2 ^ b := by
  have hstage : Stage.gpuRunOnce ≠ .count := by decide
  have hbracket := percentiles_bracket fourSamples hstage (by decide) (by decide)
  exact ⟨hbracket.1, (hbracket.2.1 0.50 (by decide +kernel)).2⟩

/-- Samples of 1 ns, and then of 1024 ns. -/
def shortSamples (short long : Nat) : List Call :=
  List.replicate short (.record .gpuRunOnce 1) ++ List.replicate long (.record .gpuRunOnce 1024)

/-- The double below 1/3 times 3 is rounded up to 1, and 22 times the double below 15/22 is
cut off to 14: the percentile is that of the sample beside the one at the exact index. -/
theorem percentile_beside :
    ((Double.round (1 / 3)).val < 1 ∧
      ((recorded (shortSamples 1 2) .gpuRunOnce).insertionSort (· ≤ ·))[
        ⌊(3 : ℚ) * (Double.round (1 / 3)).val⌋₊]? = some 1 ∧
      (run Double.toUInt64 (shortSamples 1 2)).percentileNs Double.toUInt64 .gpuRunOnce 3
        (Double.round (1 / 3)) = 1024) ∧
    ((recorded (shortSamples 15 7) .gpuRunOnce).insertionSort (· ≤ ·))[
      ⌊(22 : ℚ) * (15 / 22)⌋₊]? = some 1024 ∧
    (run Double.toUInt64 (shortSamples 15 7)).percentileNs Double.toUInt64 .gpuRunOnce 22
      (Double.round (15 / 22)) = 1 := by
  decide +kernel

end LatencyHistogram
end HoloMarket
