import Mathlib.Algebra.BigOperators.Group.Finset.Sigma
import Mathlib.Algebra.BigOperators.Ring.Finset
import Mathlib.Tactic.Ring

/-!
# CompleteComplex: flows on all pairs of `n` nodes

A flow has a value for each pair `a < b`.  Its inflows and its curls on all triples
have together `n` times the square of its length.
-/

namespace HoloMarket
namespace CompleteComplex

open Finset

variable {K : Type*}

/-- The sum over the pairs `a < b`. -/
def pairSum [AddCommMonoid K] (n : Nat) (f : Nat → Nat → K) : K :=
  ∑ b ∈ range n, ∑ a ∈ range b, f a b

/-- The sum over the triples `a < b < c`. -/
def tripleSum [AddCommMonoid K] (n : Nat) (f : Nat → Nat → Nat → K) : K :=
  ∑ c ∈ range n, pairSum c fun a b => f a b c

/-- Inflow less outflow. -/
def inflow [AddCommGroup K] (n : Nat) (x : Nat → Nat → K) (v : Nat) : K :=
  pairSum n fun a b => if v = b then x a b else if v = a then -x a b else 0

def curl [AddCommGroup K] (x : Nat → Nat → K) (a b c : Nat) : K := x a b + x b c - x a c

theorem pairSum_succ [AddCommMonoid K] (n : Nat) (f : Nat → Nat → K) :
    pairSum (n + 1) f = pairSum n f + ∑ a ∈ range n, f a n :=
  sum_range_succ _ _

theorem tripleSum_succ [AddCommMonoid K] (n : Nat) (f : Nat → Nat → Nat → K) :
    tripleSum (n + 1) f = tripleSum n f + pairSum n fun a b => f a b n :=
  sum_range_succ _ _

theorem pairSum_congr [AddCommMonoid K] {n : Nat} {f g : Nat → Nat → K}
    (h : ∀ a b, a < b → b < n → f a b = g a b) : pairSum n f = pairSum n g :=
  sum_congr rfl fun b hb => sum_congr rfl fun a ha => h a b (mem_range.mp ha) (mem_range.mp hb)

theorem pairSum_add [AddCommMonoid K] (n : Nat) (f g : Nat → Nat → K) :
    pairSum n (fun a b => f a b + g a b) = pairSum n f + pairSum n g := by
  unfold pairSum
  simp only [sum_add_distrib]

variable [CommRing K] {n : Nat} {x : Nat → Nat → K}

theorem mul_pairSum (n : Nat) (c : K) (f : Nat → Nat → K) :
    pairSum n (fun a b => c * f a b) = c * pairSum n f := by
  unfold pairSum
  simp only [mul_sum]

/-- The last node receives what all others send it. -/
theorem inflow_succ_last (n : Nat) (x : Nat → Nat → K) :
    inflow (n + 1) x n = ∑ a ∈ range n, x a n := by
  have hzero : pairSum n (fun a b => if n = b then x a b else if n = a then -x a b else 0) = 0 := by
    refine sum_eq_zero fun b hb => sum_eq_zero fun a ha => ?_
    have hb' := mem_range.mp hb
    have ha' := mem_range.mp ha
    dsimp only
    rw [if_neg (by omega), if_neg (by omega)]
  unfold inflow
  rw [pairSum_succ, hzero, zero_add]
  exact sum_congr rfl fun a _ => if_pos rfl

/-- Every other node sends what the last one receives from it. -/
theorem inflow_succ {v : Nat} (hv : v < n) : inflow (n + 1) x v = inflow n x v - x v n := by
  have hlast : ∑ a ∈ range n, (if v = n then x a n else if v = a then -x a n else 0) =
      -x v n := by
    simp only [if_neg hv.ne]
    rw [sum_ite_eq, if_pos (mem_range.mpr hv)]
  unfold inflow
  rw [pairSum_succ, hlast, sub_eq_add_neg]

/-- The inflow of a gradient compares the potential of a node with all others. -/
theorem inflow_sub {v : Nat} (y : Nat → K) (hv : v < n) :
    inflow n (fun a b => y b - y a) v = n * y v - ∑ u ∈ range n, y u := by
  induction n with
  | zero => omega
  | succ n ih =>
    rw [sum_range_succ, Nat.cast_succ]
    by_cases hlast : v = n
    · rw [hlast, inflow_succ_last, sum_sub_distrib, sum_const, card_range, nsmul_eq_mul]
      ring
    · rw [inflow_succ (by omega), ih (by omega)]
      ring

/-- The inflow is adjoint to the difference of a potential. -/
theorem sum_mul_inflow (n : Nat) (y : Nat → K) (x : Nat → Nat → K) :
    ∑ v ∈ range n, y v * inflow n x v = pairSum n fun a b => x a b * (y b - y a) := by
  have hterm : ∀ a b, a < b → b < n →
      (∑ v ∈ range n, y v * (if v = b then x a b else if v = a then -x a b else 0)) =
        x a b * (y b - y a) := by
    intro a b hab hb
    have hsplit : ∀ v, y v * (if v = b then x a b else if v = a then -x a b else 0) =
        (if v = b then y v * x a b else 0) - if v = a then y v * x a b else 0 := by
      intro v
      by_cases hvb : v = b
      · rw [if_pos hvb, if_pos hvb, if_neg (by omega), sub_zero]
      · rw [if_neg hvb, if_neg hvb, zero_sub]
        split_ifs with hva
        · ring
        · rw [mul_zero, neg_zero]
    simp only [hsplit, sum_sub_distrib]
    rw [sum_ite_eq', sum_ite_eq', if_pos (mem_range.mpr hb),
      if_pos (mem_range.mpr (hab.trans hb))]
    ring
  calc ∑ v ∈ range n, y v * inflow n x v
      = ∑ v ∈ range n, ∑ b ∈ range n, ∑ a ∈ range b,
          y v * (if v = b then x a b else if v = a then -x a b else 0) := by
        unfold inflow pairSum
        simp only [mul_sum]
    _ = ∑ b ∈ range n, ∑ a ∈ range b, ∑ v ∈ range n,
          y v * (if v = b then x a b else if v = a then -x a b else 0) := by
        rw [sum_comm]
        exact sum_congr rfl fun b _ => sum_comm
    _ = pairSum n fun a b => x a b * (y b - y a) := pairSum_congr hterm

theorem pairSum_sub_sq (n : Nat) (y : Nat → K) :
    pairSum n (fun a b => (y b - y a) ^ 2) =
      n * ∑ a ∈ range n, y a ^ 2 - (∑ a ∈ range n, y a) ^ 2 := by
  induction n with
  | zero => simp [pairSum]
  | succ n ih =>
    have hrow : ∑ a ∈ range n, (y n - y a) ^ 2 =
        n * y n ^ 2 - 2 * y n * ∑ a ∈ range n, y a + ∑ a ∈ range n, y a ^ 2 := by
      simp only [sub_sq, sum_add_distrib, sum_sub_distrib, sum_const, card_range, nsmul_eq_mul,
        ← mul_sum]
    rw [pairSum_succ, ih, hrow, sum_range_succ, sum_range_succ, Nat.cast_succ]
    ring

/-- The products of the differences of two lists of numbers. -/
theorem pairSum_sub_mul_sub (n : Nat) (y z : Nat → K) :
    pairSum n (fun a b => (y b - y a) * (z b - z a)) =
      n * ∑ a ∈ range n, y a * z a - (∑ a ∈ range n, y a) * ∑ a ∈ range n, z a := by
  rw [← sum_mul_inflow n z fun a b => y b - y a]
  calc ∑ v ∈ range n, z v * inflow n (fun a b => y b - y a) v
      = ∑ v ∈ range n, (n * (y v * z v) - (∑ a ∈ range n, y a) * z v) := by
        refine sum_congr rfl fun v hv => ?_
        rw [inflow_sub y (mem_range.mp hv)]
        ring
    _ = _ := by rw [sum_sub_distrib, ← mul_sum, ← mul_sum]

theorem pairSum_sum {ι : Type*} (s : Finset ι) (n : Nat) (f : ι → Nat → Nat → K) :
    pairSum n (fun a b => ∑ d ∈ s, f d a b) = ∑ d ∈ s, pairSum n (f d) := by
  unfold pairSum
  rw [sum_comm]
  exact sum_congr rfl fun b _ => sum_comm

theorem pairSum_curl_sq (n : Nat) (x : Nat → Nat → K) :
    pairSum n (fun a b => curl x a b n ^ 2) =
      pairSum n (fun a b => x a b ^ 2) + 2 * ∑ v ∈ range n, x v n * inflow n x v +
        (n * ∑ a ∈ range n, x a n ^ 2 - (∑ a ∈ range n, x a n) ^ 2) := by
  rw [sum_mul_inflow n fun v => x v n, ← mul_pairSum, ← pairSum_sub_sq n fun a => x a n,
    ← pairSum_add, ← pairSum_add]
  refine pairSum_congr fun a b _ _ => ?_
  unfold curl
  ring

/-- On all pairs and all triples the Hodge Laplacian is `n` times the identity. -/
theorem sum_inflow_sq_add_curl_sq (n : Nat) (x : Nat → Nat → K) :
    ∑ v ∈ range n, inflow n x v ^ 2 + tripleSum n (fun a b c => curl x a b c ^ 2) =
      n * pairSum n fun a b => x a b ^ 2 := by
  induction n with
  | zero => simp [tripleSum, pairSum]
  | succ n ih =>
    have hnodes : ∑ v ∈ range n, inflow (n + 1) x v ^ 2 =
        ∑ v ∈ range n, inflow n x v ^ 2 - 2 * ∑ v ∈ range n, x v n * inflow n x v +
          ∑ a ∈ range n, x a n ^ 2 := by
      rw [mul_sum, ← sum_sub_distrib, ← sum_add_distrib]
      refine sum_congr rfl fun v hv => ?_
      rw [inflow_succ (mem_range.mp hv)]
      ring
    rw [sum_range_succ, inflow_succ_last, hnodes, tripleSum_succ, pairSum_curl_sq, pairSum_succ,
      Nat.cast_succ]
    calc _ = (∑ v ∈ range n, inflow n x v ^ 2 + tripleSum n fun a b c => curl x a b c ^ 2) +
          pairSum n (fun a b => x a b ^ 2) + (n + 1) * ∑ a ∈ range n, x a n ^ 2 := by ring
      _ = _ := by rw [ih]; ring

end CompleteComplex
end HoloMarket
