import Mathlib.Algebra.BigOperators.Ring.List
import Mathlib.Algebra.Order.BigOperators.Group.List
import Mathlib.Algebra.Order.Field.Basic
import Mathlib.Tactic.FieldSimp
import Mathlib.Tactic.Ring

/-!
# The variance of a list

The mean of the squared deviations from the mean, with its one-pass form and the lists
on which it vanishes.
-/

namespace HoloMarket
namespace SampleVariance

variable {K : Type*} [Field K]

def mean (rs : List K) : K := rs.sum / (rs.length : K)

def variance (rs : List K) : K :=
  (rs.map fun r => (r - mean rs) ^ 2).sum / (rs.length : K)

theorem sum_sq_dev (m : K) (rs : List K) :
    (rs.map fun r => (r - m) ^ 2).sum =
      (rs.map fun r => r * r).sum - 2 * m * rs.sum + (rs.length : K) * m ^ 2 := by
  induction rs with
  | nil => simp
  | cons r rs ih =>
    simp only [List.map_cons, List.sum_cons, List.length_cons, Nat.cast_succ]
    rw [ih]
    ring

variable [LinearOrder K] [IsStrictOrderedRing K] {rs : List K}

theorem length_ne_zero (h : rs ≠ []) : (rs.length : K) ≠ 0 :=
  Nat.cast_ne_zero.mpr fun hzero => h (List.length_eq_zero_iff.mp hzero)

/-- The variance in one pass is the variance in two. -/
theorem variance_eq (h : rs ≠ []) :
    variance rs = (rs.map fun r => r * r).sum / (rs.length : K) - mean rs * mean rs := by
  have hlen := length_ne_zero h
  unfold variance
  rw [sum_sq_dev, mean]
  field_simp
  ring

theorem sum_sq_dev_nonneg (m : K) (rs : List K) :
    0 ≤ (rs.map fun r => (r - m) ^ 2).sum := by
  refine List.sum_nonneg fun x hx => ?_
  obtain ⟨r, -, rfl⟩ := List.mem_map.mp hx
  exact sq_nonneg _

theorem variance_nonneg (rs : List K) : 0 ≤ variance rs :=
  div_nonneg (sum_sq_dev_nonneg _ _) (Nat.cast_nonneg _)

theorem sum_sq_dev_eq_zero {m : K} :
    (rs.map fun r => (r - m) ^ 2).sum = 0 ↔ ∀ r ∈ rs, r = m := by
  induction rs with
  | nil => simp
  | cons r rs ih =>
    rw [List.map_cons, List.sum_cons,
      add_eq_zero_iff_of_nonneg (sq_nonneg _) (sum_sq_dev_nonneg m rs), ih, sq_eq_zero_iff,
      sub_eq_zero, List.forall_mem_cons]

/-- The values are all equal. -/
def Constant (rs : List K) : Prop := ∀ r ∈ rs, ∀ s ∈ rs, r = s

instance (rs : List K) : Decidable (Constant rs) :=
  inferInstanceAs (Decidable (∀ r ∈ rs, ∀ s ∈ rs, r = s))

theorem mean_replicate {n : Nat} (hn : n ≠ 0) (r : K) : mean (List.replicate n r) = r := by
  unfold mean
  rw [List.sum_replicate, List.length_replicate, nsmul_eq_mul,
    mul_div_cancel_left₀ _ (Nat.cast_ne_zero.mpr hn)]

theorem variance_eq_zero_iff (h : rs ≠ []) : variance rs = 0 ↔ Constant rs := by
  unfold variance
  rw [div_eq_zero_iff, or_iff_left (length_ne_zero h), sum_sq_dev_eq_zero]
  constructor
  · intro hall r hr s hs
    rw [hall r hr, hall s hs]
  · intro hall r hr
    have hrep : rs = List.replicate rs.length r :=
      List.eq_replicate_iff.mpr ⟨rfl, fun s hs => hall s hs r hr⟩
    rw [hrep, mean_replicate fun hzero => h (List.length_eq_zero_iff.mp hzero)]

theorem variance_pos_iff (h : rs ≠ []) : 0 < variance rs ↔ ¬ Constant rs := by
  rw [← variance_eq_zero_iff h, lt_iff_le_and_ne, and_iff_right (variance_nonneg rs), ne_comm]

end SampleVariance
end HoloMarket
