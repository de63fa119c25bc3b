import Mathlib.Algebra.BigOperators.Intervals
import Mathlib.Algebra.BigOperators.Ring.Finset
import Mathlib.Order.Lattice
import Mathlib.Tactic.Ring

/-!
# Truncation: the error of a truncated factorisation

A thin singular value decomposition of an `m` by `n` array with `k` values.  Where
the first `r` columns are kept and their coefficients are approximated, the squared
error is that of the coefficients and the squares of the values that are left out.
-/

namespace HoloMarket
namespace Truncation

open Finset

variable {K : Type*} [CommRing K] {m n k : Nat} {A U V : Nat → Nat → K} {s : Nat → K}

/-- The first `k` columns are orthonormal. -/
def Orthonormal (m k : Nat) (U : Nat → Nat → K) : Prop :=
  ∀ b < k, ∀ c < k, ∑ i ∈ range m, U i b * U i c = if b = c then 1 else 0

structure IsThinSvd [LinearOrder K] (m n k : Nat) (A U : Nat → Nat → K) (s : Nat → K)
    (V : Nat → Nat → K) : Prop where
  product : ∀ i < m, ∀ j < n, ∑ b ∈ range k, U i b * (s b * V b j) = A i j
  left : Orthonormal m k U
  right : Orthonormal n k fun j b => V b j
  decreasing : ∀ b c, b ≤ c → c < k → s c ≤ s b
  nonneg : ∀ b < k, 0 ≤ s b

/-- A combination of orthonormal columns has the length of its coefficients. -/
theorem Orthonormal.sum_sq (hU : Orthonormal m k U) (c : Nat → K) :
    ∑ i ∈ range m, (∑ b ∈ range k, U i b * c b) ^ 2 = ∑ b ∈ range k, c b ^ 2 := by
  calc ∑ i ∈ range m, (∑ b ∈ range k, U i b * c b) ^ 2
      = ∑ i ∈ range m, ∑ b ∈ range k, ∑ d ∈ range k, c b * c d * (U i b * U i d) := by
        refine sum_congr rfl fun i _ => ?_
        rw [sq, sum_mul_sum]
        exact sum_congr rfl fun b _ => sum_congr rfl fun d _ => by ring
    _ = ∑ b ∈ range k, ∑ d ∈ range k, c b * c d * ∑ i ∈ range m, U i b * U i d := by
        rw [sum_comm]
        refine sum_congr rfl fun b _ => ?_
        rw [sum_comm]
        exact sum_congr rfl fun d _ => (mul_sum _ _ _).symm
    _ = ∑ b ∈ range k, c b ^ 2 := by
        refine sum_congr rfl fun b hb => ?_
        rw [sum_eq_single b]
        · rw [hU b (mem_range.mp hb) b (mem_range.mp hb), if_pos rfl, mul_one, sq]
        · intro d hd hne
          rw [hU b (mem_range.mp hb) d (mem_range.mp hd), if_neg hne.symm, mul_zero]
        · intro hnot
          exact absurd hb hnot

/-- The columns `r + x` are left out, and `X` stands for the products that are kept. -/
theorem IsThinSvd.sum_sq_truncate [LinearOrder K] {r t : Nat}
    (h : IsThinSvd m n (r + t) A U s V) (X : Nat → Nat → K) :
    ∑ i ∈ range m, ∑ j ∈ range n, (A i j - ∑ b ∈ range r, U i b * X b j) ^ 2 =
      ∑ b ∈ range r, ∑ j ∈ range n, (s b * V b j - X b j) ^ 2 +
        ∑ x ∈ range t, s (r + x) ^ 2 := by
  let c : Nat → Nat → K := fun j b => if b < r then s b * V b j - X b j else s b * V b j
  have hkept : ∀ j, ∀ b ∈ range r, c j b = s b * V b j - X b j := fun j b hb =>
    if_pos (mem_range.mp hb)
  have hleft : ∀ j x, c j (r + x) = s (r + x) * V (r + x) j := fun j x => if_neg (by omega)
  have herror : ∀ i ∈ range m, ∀ j ∈ range n, A i j - ∑ b ∈ range r, U i b * X b j =
      ∑ b ∈ range (r + t), U i b * c j b := by
    intro i hi j hj
    rw [← h.product i (mem_range.mp hi) j (mem_range.mp hj), sum_range_add, sum_range_add,
      add_sub_right_comm, ← sum_sub_distrib]
    congr 1
    · refine sum_congr rfl fun b hb => ?_
      rw [hkept j b hb]
      ring
    · exact sum_congr rfl fun x _ => by rw [hleft]
  calc ∑ i ∈ range m, ∑ j ∈ range n, (A i j - ∑ b ∈ range r, U i b * X b j) ^ 2
      = ∑ j ∈ range n, ∑ i ∈ range m, (∑ b ∈ range (r + t), U i b * c j b) ^ 2 := by
        rw [sum_comm]
        refine sum_congr rfl fun j hj => sum_congr rfl fun i hi => ?_
        rw [herror i hi j hj]
    _ = ∑ b ∈ range (r + t), ∑ j ∈ range n, c j b ^ 2 := by
        rw [sum_congr rfl fun j _ => h.left.sum_sq (c j), sum_comm]
    _ = _ := by
        rw [sum_range_add]
        congr 1
        · exact sum_congr rfl fun b hb => sum_congr rfl fun j _ => by rw [hkept j b hb]
        · refine sum_congr rfl fun x hx => ?_
          have hlt : r + x < r + t := Nat.add_lt_add_left (mem_range.mp hx) r
          have hunit := h.right (r + x) hlt (r + x) hlt
          rw [if_pos rfl] at hunit
          calc ∑ j ∈ range n, c j (r + x) ^ 2
              = ∑ j ∈ range n, s (r + x) ^ 2 * (V (r + x) j * V (r + x) j) := by
                exact sum_congr rfl fun j _ => by rw [hleft]; ring
            _ = s (r + x) ^ 2 := by rw [← mul_sum, hunit, mul_one]

end Truncation
end HoloMarket
