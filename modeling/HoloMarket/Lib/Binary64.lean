import Mathlib.Data.Int.Notation
import Mathlib.Tactic.Linarith

/-!
# Binary64: whole numbers in double precision

A whole number is rounded to 53 significant bits, half to even, and a double or
a product goes back into a 64-bit integer.  What is exact on the way is a
condition on the number alone.
-/

namespace HoloMarket
namespace Binary64

/-- The exponent of the last of the 53 bits. -/
def ulpExp (n : Nat) : Nat := n.log2 - 52

/-- `n / d`, rounded half to even. -/
def divEven (n d : Nat) : Nat :=
  if 2 * (n % d) < d ∨ (2 * (n % d) = d ∧ n / d % 2 = 0) then n / d else n / d + 1

def roundNat (n : Nat) : Nat := divEven n (2 ^ ulpExp n) * 2 ^ ulpExp n

/-- The nearest double. -/
def round (n : Int) : Int := n.sign * roundNat n.natAbs

/-- The number is a double. -/
def Exact (n : Int) : Prop := 2 ^ ulpExp n.natAbs ∣ n.natAbs

instance (n : Int) : Decidable (Exact n) := inferInstanceAs (Decidable (_ ∣ _))

def InInt64 (n : Int) : Prop := -2 ^ 63 ≤ n ∧ n < 2 ^ 63

instance (n : Int) : Decidable (InInt64 n) := inferInstanceAs (Decidable (_ ∧ _))

/-- A double as a 64-bit integer; out of range the processor gives the least. -/
def toInt64 (x : Int) : Int := if InInt64 x then x else -2 ^ 63

/-- The product of 64-bit integers, given the product of the numbers. -/
def wrapInt64 (x : Int) : Int := x.bmod (2 ^ 64)

theorem le_divEven (n d : Nat) : n / d ≤ divEven n d := by
  unfold divEven
  split
  · exact Nat.le_refl _
  · exact Nat.le_succ _

theorem divEven_of_dvd {n d : Nat} (hd : 0 < d) (h : d ∣ n) : divEven n d = n / d := by
  refine if_pos (Or.inl ?_)
  rw [Nat.mod_eq_zero_of_dvd h]
  exact hd

theorem roundNat_eq_self_iff (n : Nat) : roundNat n = n ↔ 2 ^ ulpExp n ∣ n := by
  constructor
  · intro h
    have hdvd : 2 ^ ulpExp n ∣ roundNat n := Nat.dvd_mul_left _ _
    rwa [h] at hdvd
  · intro h
    rw [roundNat, divEven_of_dvd (Nat.two_pow_pos _) h, Nat.div_mul_cancel h]

/-- What has more than 53 bits keeps more than 53 bits. -/
theorem le_roundNat {n : Nat} (h : 2 ^ 53 ≤ n) : 2 ^ 53 ≤ roundNat n := by
  have hne : n ≠ 0 := by
    rintro rfl
    exact absurd h (by decide)
  have hlog : 53 ≤ n.log2 := (Nat.le_log2 hne).mpr h
  have hself : 2 ^ n.log2 ≤ n := Nat.log2_self_le hne
  have hsplit : 2 ^ n.log2 = 2 ^ 52 * 2 ^ ulpExp n := by
    rw [← Nat.pow_add]
    congr 1
    unfold ulpExp
    omega
  have hquot : 2 ^ 52 ≤ n / 2 ^ ulpExp n := by
    rw [Nat.le_div_iff_mul_le (Nat.two_pow_pos _), ← hsplit]
    exact hself
  calc 2 ^ 53 ≤ 2 ^ n.log2 := Nat.pow_le_pow_right (by decide) hlog
    _ = 2 ^ 52 * 2 ^ ulpExp n := hsplit
    _ ≤ roundNat n := Nat.mul_le_mul_right _ (hquot.trans (le_divEven _ _))

theorem ulpExp_of_lt {n : Nat} (h : n < 2 ^ 53) : ulpExp n = 0 := by
  by_cases hne : n = 0
  · subst hne
    rfl
  · have hlog : n.log2 < 53 := (Nat.log2_lt hne).mpr h
    unfold ulpExp
    omega

theorem exact_of_lt {n : Int} (h : n.natAbs < 2 ^ 53) : Exact n := by
  rw [Exact, ulpExp_of_lt h]
  exact Nat.one_dvd _

theorem natAbs_round {n : Int} : (round n).natAbs = roundNat n.natAbs := by
  unfold round
  rw [Int.natAbs_mul, Int.natAbs_natCast, Int.natAbs_sign]
  split
  · next h =>
    rw [h]
    rfl
  · rw [Nat.one_mul]

theorem round_eq_self_iff (n : Int) : round n = n ↔ Exact n := by
  unfold Exact
  rw [← roundNat_eq_self_iff]
  constructor
  · intro h
    rw [← natAbs_round, h]
  · intro h
    rw [round, h, Int.sign_mul_natAbs]

theorem wrapInt64_eq_self_iff (x : Int) : wrapInt64 x = x ↔ InInt64 x := by
  unfold wrapInt64 InInt64
  rw [Int.bmod_eq_iff (by decide)]
  constructor
  · rintro ⟨hlo, hhi, -⟩
    omega
  · rintro ⟨hlo, hhi⟩
    omega

theorem inInt64_wrapInt64 (x : Int) : InInt64 (wrapInt64 x) := by
  unfold wrapInt64 InInt64
  have hlo := Int.le_bmod (x := x) (m := 2 ^ 64) (by decide)
  have hhi := Int.bmod_lt (x := x) (m := 2 ^ 64) (by decide)
  omega

end Binary64
end HoloMarket
