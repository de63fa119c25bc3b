import Mathlib.Algebra.BigOperators.Group.Finset.Basic
import Mathlib.Algebra.BigOperators.Intervals

/-!
# RowMajor: indices of an array in row-major order

The place of a multi-index in the buffer of an array, and sums over multi-indices as
sums over the buffer.
-/

namespace HoloMarket
namespace RowMajor

open Finset

variable {M : Type*} [AddCommMonoid M]

def flatIndex : List Nat → List Nat → Nat
  | _ :: ns, i :: is => i * ns.prod + flatIndex ns is
  | _, _ => 0

/-- The sum over the multi-indices of a shape. -/
def sumOver : List Nat → (List Nat → M) → M
  | [], f => f []
  | n :: ns, f => ∑ i ∈ range n, sumOver ns fun is => f (i :: is)

theorem sum_range_mul (a b : Nat) (f : Nat → M) :
    ∑ x ∈ range (a * b), f x = ∑ i ∈ range a, ∑ j ∈ range b, f (i * b + j) := by
  induction a with
  | zero => rw [Nat.zero_mul, sum_range_zero, sum_range_zero]
  | succ a ih => rw [Nat.succ_mul, sum_range_add, ih, sum_range_succ]

/-- The multi-index of a place. -/
def unflat : List Nat → Nat → List Nat
  | [], _ => []
  | _ :: ns, q => q / ns.prod :: unflat ns (q % ns.prod)

theorem mul_add_div_mod {p j : Nat} (i : Nat) (hj : j < p) :
    (i * p + j) / p = i ∧ (i * p + j) % p = j := by
  have hp : 0 < p := Nat.zero_lt_of_lt hj
  constructor
  · rw [Nat.mul_comm, Nat.mul_add_div hp, Nat.div_eq_of_lt hj, Nat.add_zero]
  · rw [Nat.mul_comm, Nat.mul_add_mod, Nat.mod_eq_of_lt hj]

theorem unflat_cons {n i j : Nat} {ns : List Nat} (hj : j < ns.prod) :
    unflat (n :: ns) (i * ns.prod + j) = i :: unflat ns j := by
  rw [unflat, (mul_add_div_mod i hj).1, (mul_add_div_mod i hj).2]

theorem flatIndex_unflat {ns : List Nat} {q : Nat} (hq : q < ns.prod) :
    flatIndex ns (unflat ns q) = q := by
  induction ns generalizing q with
  | nil =>
    rw [List.prod_nil] at hq
    exact (Nat.lt_one_iff.mp hq).symm
  | cons n ns ih =>
    rw [List.prod_cons] at hq
    have hpos : 0 < ns.prod := Nat.pos_of_ne_zero fun h => by simp [h] at hq
    rw [unflat, flatIndex, ih (Nat.mod_lt q hpos)]
    exact Nat.div_add_mod' q ns.prod

theorem sumOver_eq (ns : List Nat) (f : List Nat → M) :
    sumOver ns f = ∑ q ∈ range ns.prod, f (unflat ns q) := by
  induction ns generalizing f with
  | nil => exact (sum_range_one fun q => f (unflat [] q)).symm
  | cons n ns ih =>
    rw [List.prod_cons, sum_range_mul]
    refine sum_congr rfl fun i _ => ?_
    rw [ih]
    exact sum_congr rfl fun j hj => by rw [unflat_cons (mem_range.mp hj)]

end RowMajor
end HoloMarket
