import Mathlib.Data.Rat.Floor
import HoloMarket.Lib.DecimalText

/-!
# DoubleRounding: products of doubles, and the integer below them

A magnitude is rounded to 53 significant bits, half to even, without regard to the range
of the exponents.  Rounding is monotone and fixes the doubles, so that the product of a
double with a natural number keeps between the integers around it; a product that misses a
fraction of small denominator by little has the same integer below it as the fraction.
-/

namespace HoloMarket
namespace DoubleRounding

open DecimalText

/-- The exponent of the last of the 53 bits. -/
def lastExp (x : ℚ) : Int := Int.log 2 x - 52

/-- The nearest double. -/
def roundDouble (x : ℚ) : ℚ := roundEven (x / 2 ^ lastExp x) * 2 ^ lastExp x

theorem zpow_lastExp_pos (x : ℚ) : (0 : ℚ) < 2 ^ lastExp x := zpow_pos (by norm_num) _

/-! ## The doubles -/

theorem zpow_lastExp (x : ℚ) : (2 : ℚ) ^ lastExp x = 2 ^ Int.log 2 x / 2 ^ 52 := by
  unfold lastExp
  rw [zpow_sub₀ (by norm_num)]
  norm_num

theorem scaled_mem {x : ℚ} (hx : 0 < x) :
    ((2 ^ 52 : Nat) : ℚ) ≤ x / 2 ^ lastExp x ∧ x / 2 ^ lastExp x < (2 ^ 53 : Nat) := by
  have hlo := Int.zpow_log_le_self (b := 2) (by decide) hx
  have hhi := Int.lt_zpow_succ_log_self (b := 2) (by decide) x
  rw [zpow_add_one₀ (by norm_num)] at hhi
  push_cast at hlo hhi
  rw [le_div_iff₀ (zpow_lastExp_pos x), div_lt_iff₀ (zpow_lastExp_pos x), zpow_lastExp]
  push_cast
  constructor <;> linarith

theorem roundDouble_of_nonpos {x : ℚ} (hx : x ≤ 0) : roundDouble x = 0 := by
  have hscaled : x / 2 ^ lastExp x ≤ 0 := div_nonpos_of_nonpos_of_nonneg hx (zpow_lastExp_pos x).le
  unfold roundDouble roundEven
  dsimp only
  have hlow : x / 2 ^ lastExp x - ((0 : Nat) : ℚ) < 1 / 2 := by
    rw [Nat.cast_zero]
    linarith
  rw [Nat.floor_of_nonpos hscaled, if_pos hlow, Nat.cast_zero, zero_mul]

theorem roundDouble_nonneg (x : ℚ) : 0 ≤ roundDouble x :=
  mul_nonneg (Nat.cast_nonneg _) (zpow_lastExp_pos x).le

theorem roundDouble_of_scaled {x : ℚ} {m : Nat} (h : x = m * 2 ^ lastExp x) :
    roundDouble x = x := by
  have hscaled : x / 2 ^ lastExp x = m := by
    rw [div_eq_iff (zpow_lastExp_pos x).ne', ← h]
  unfold roundDouble
  rw [hscaled, roundEven_natCast, ← h]

theorem lastExp_le {x : ℚ} (hx : 0 < x) {e : Int} (hlt : x < 2 ^ (53 + e)) : lastExp x ≤ e := by
  have hlog : Int.log 2 x < 53 + e :=
    (Int.lt_zpow_iff_log_lt (b := 2) (by decide) hx).mp (by exact_mod_cast hlt)
  unfold lastExp
  omega

theorem roundDouble_zero : roundDouble 0 = 0 := roundDouble_of_nonpos (le_refl 0)

/-- What fits into 53 bits is not rounded. -/
theorem roundDouble_dyadic {m : Nat} (hm : m ≤ 2 ^ 53) (e : Int) :
    roundDouble ((m : ℚ) * 2 ^ e) = (m : ℚ) * 2 ^ e := by
  have hpow : (0 : ℚ) < 2 ^ e := zpow_pos (by norm_num) _
  rcases Nat.eq_zero_or_pos m with rfl | hpos
  · rw [Nat.cast_zero, zero_mul, roundDouble_zero]
  rcases Nat.lt_or_eq_of_le hm with hlt | rfl
  · have hpos' : (0 : ℚ) < m * 2 ^ e := mul_pos (by exact_mod_cast hpos) hpow
    have hle : lastExp ((m : ℚ) * 2 ^ e) ≤ e := by
      refine lastExp_le hpos' ?_
      rw [zpow_add₀ (by norm_num)]
      exact mul_lt_mul_of_pos_right (by exact_mod_cast hlt) hpow
    obtain ⟨k, hk⟩ : ∃ k : Nat, e = k + lastExp ((m : ℚ) * 2 ^ e) :=
      ⟨(e - lastExp ((m : ℚ) * 2 ^ e)).toNat, by omega⟩
    refine roundDouble_of_scaled (m := m * 2 ^ k) ?_
    rw [Nat.cast_mul, Nat.cast_pow, mul_assoc, Nat.cast_ofNat, ← zpow_natCast,
      ← zpow_add₀ (by norm_num), ← hk]
  · -- the next power of two, of one bit
    have hlog : Int.log 2 (((2 ^ 53 : Nat) : ℚ) * 2 ^ e) = 53 + e := by
      have hcast : ((2 ^ 53 : Nat) : ℚ) * 2 ^ e = ((2 : Nat) : ℚ) ^ (53 + e) := by
        rw [zpow_add₀ (by norm_num)]
        norm_num
      rw [hcast]
      exact Int.log_zpow (by decide) _
    refine roundDouble_of_scaled (m := 2 ^ 52) ?_
    rw [zpow_lastExp, hlog, zpow_add₀ (by norm_num)]
    norm_num
    ring

theorem roundDouble_roundDouble (x : ℚ) : roundDouble (roundDouble x) = roundDouble x := by
  rcases le_or_gt x 0 with hx | hx
  · rw [roundDouble_of_nonpos hx, roundDouble_zero]
  · obtain ⟨hlo, hhi⟩ := scaled_mem hx
    exact roundDouble_dyadic (roundEven_mem hlo hhi).2 _

/-- A double that is not negative. -/
structure Double where
  val : ℚ
  isDouble : roundDouble val = val
deriving DecidableEq

namespace Double

def round (x : ℚ) : Double := ⟨roundDouble x, roundDouble_roundDouble x⟩

instance : NatCast Double := ⟨fun n => round n⟩

instance : Mul Double := ⟨fun x y => round (x.val * y.val)⟩

instance : OfScientific Double := ⟨fun m s e => round (OfScientific.ofScientific m s e)⟩

/-- The conversion to an integer. -/
def toUInt64 (x : Double) : Nat := ⌊x.val⌋₊

theorem val_natCast (n : Nat) : (n : Double).val = roundDouble n := rfl

theorem val_mul (x y : Double) : (x * y).val = roundDouble (x.val * y.val) := rfl

theorem nonneg (d : Double) : 0 ≤ d.val := by
  rw [← d.isDouble]
  exact roundDouble_nonneg _

end Double

/-! ## Order -/

theorem roundDouble_mono {x y : ℚ} (h : x ≤ y) : roundDouble x ≤ roundDouble y := by
  rcases le_or_gt x 0 with hx | hx
  · rw [roundDouble_of_nonpos hx]
    exact roundDouble_nonneg y
  have hy : 0 < y := hx.trans_le h
  have hexp : lastExp x ≤ lastExp y := Int.sub_le_sub_right (Int.log_mono_right hx h) 52
  rcases Int.lt_or_eq_of_le hexp with hlt | heq
  · -- the power of two above the smaller one
    have hx' : ((roundEven (x / 2 ^ lastExp x) : Nat) : ℚ) ≤ (2 ^ 53 : Nat) :=
      Nat.cast_le.mpr (roundEven_mem (scaled_mem hx).1 (scaled_mem hx).2).2
    have hy' : ((2 ^ 52 : Nat) : ℚ) ≤ roundEven (y / 2 ^ lastExp y) :=
      Nat.cast_le.mpr (roundEven_mem (scaled_mem hy).1 (scaled_mem hy).2).1
    calc roundDouble x ≤ (2 ^ 53 : Nat) * 2 ^ lastExp x :=
          mul_le_mul_of_nonneg_right hx' (zpow_lastExp_pos x).le
      _ = (2 ^ 52 : Nat) * 2 ^ (lastExp x + 1) := by
          rw [zpow_add_one₀ (by norm_num)]
          push_cast
          ring
      _ ≤ (2 ^ 52 : Nat) * 2 ^ lastExp y :=
          mul_le_mul_of_nonneg_left (zpow_le_zpow_right₀ (by norm_num) hlt) (Nat.cast_nonneg _)
      _ ≤ roundDouble y := mul_le_mul_of_nonneg_right hy' (zpow_lastExp_pos y).le
  · unfold roundDouble
    rw [heq]
    have hscaled : x / 2 ^ lastExp y ≤ y / 2 ^ lastExp y :=
      div_le_div_of_nonneg_right h (zpow_lastExp_pos y).le
    exact mul_le_mul_of_nonneg_right (Nat.cast_le.mpr (roundEven_mono hscaled))
      (zpow_lastExp_pos y).le

theorem roundDouble_natCast {n : Nat} (hn : n ≤ 2 ^ 53) : roundDouble (n : ℚ) = n := by
  have hdyadic := roundDouble_dyadic hn 0
  rwa [zpow_zero, mul_one] at hdyadic

/-! ## Rounding errors -/

theorem abs_roundEven_sub_le {z : ℚ} (hz : 0 ≤ z) : |(roundEven z : ℚ) - z| ≤ 1 / 2 := by
  have hle := Nat.floor_le hz
  have hlt := Nat.lt_floor_add_one z
  rw [abs_le]
  unfold roundEven
  dsimp only
  split_ifs <;> push_cast <;> constructor <;> linarith

theorem abs_roundDouble_sub_le {x : ℚ} (hx : 0 ≤ x) : |roundDouble x - x| ≤ 2 ^ lastExp x / 2 := by
  have hpos := zpow_lastExp_pos x
  have hunit := abs_roundEven_sub_le (div_nonneg hx hpos.le)
  have hscale : roundDouble x - x =
      (roundEven (x / 2 ^ lastExp x) - x / 2 ^ lastExp x) * 2 ^ lastExp x := by
    unfold roundDouble
    field_simp
  rw [hscale, abs_mul, abs_of_pos hpos]
  calc |(roundEven (x / 2 ^ lastExp x) : ℚ) - x / 2 ^ lastExp x| * 2 ^ lastExp x
      ≤ 1 / 2 * 2 ^ lastExp x := mul_le_mul_of_nonneg_right hunit hpos.le
    _ = 2 ^ lastExp x / 2 := by ring

/-- Less than half a unit away, an integer is the nearest double. -/
theorem roundDouble_near {x : ℚ} {m : Nat} (hexp : lastExp x ≤ 0)
    (hnear : |x - m| < 2 ^ lastExp x / 2) : roundDouble x = m := by
  have hpos := zpow_lastExp_pos x
  obtain ⟨k, hk⟩ : ∃ k : Nat, lastExp x = -k := ⟨(-lastExp x).toNat, by omega⟩
  have hunit : ((m * 2 ^ k : Nat) : ℚ) * 2 ^ lastExp x = m := by
    rw [hk, zpow_neg, zpow_natCast]
    push_cast
    exact mul_inv_cancel_right₀ (pow_ne_zero k (by norm_num)) _
  have hclose : |x / 2 ^ lastExp x - (m * 2 ^ k : Nat)| < 1 / 2 := by
    have hscale : (x / 2 ^ lastExp x - (m * 2 ^ k : Nat)) * 2 ^ lastExp x = x - m := by
      rw [sub_mul, div_mul_cancel₀ _ hpos.ne', hunit]
    rw [← hscale, abs_mul, abs_of_pos hpos] at hnear
    exact lt_of_mul_lt_mul_right (hnear.trans_eq (by ring)) hpos.le
  unfold roundDouble
  rw [roundEven_near hclose, hunit]

theorem unit_bounds {y : ℚ} (hy : 0 < y) :
    y / 2 ^ 54 < 2 ^ lastExp y / 2 ∧ (2 : ℚ) ^ lastExp y / 2 ≤ y / 2 ^ 53 := by
  obtain ⟨hlo, hhi⟩ := scaled_mem hy
  rw [le_div_iff₀ (zpow_lastExp_pos y)] at hlo
  rw [div_lt_iff₀ (zpow_lastExp_pos y)] at hhi
  push_cast at hlo hhi
  constructor <;> linarith

theorem lastExp_nonpos {y : ℚ} (hy : 0 < y) (hsmall : y < 2 ^ 53) : lastExp y ≤ 0 :=
  lastExp_le hy (by exact_mod_cast hsmall)

/-! ## Products with a number below one -/

theorem Double.le_of_lt_one {d : Double} (hd : d.val < 1) : d.val ≤ 1 - 1 / 2 ^ 53 := by
  by_contra hgt
  push Not at hgt
  have hpos : 0 < d.val := lt_trans (by norm_num) hgt
  have hexp : lastExp d.val = -53 := by
    have hle : lastExp d.val ≤ -53 := lastExp_le hpos (by exact_mod_cast hd)
    have hge : -1 ≤ Int.log 2 d.val :=
      (Int.zpow_le_iff_le_log (b := 2) (by decide) hpos).mp (by norm_num; linarith)
    unfold lastExp at hle ⊢
    omega
  -- no multiple of the last bit lies between
  have hval : d.val = roundEven (d.val / 2 ^ lastExp d.val) * 2 ^ lastExp d.val := d.isDouble.symm
  generalize roundEven (d.val / 2 ^ lastExp d.val) = m at hval
  rw [hexp] at hval
  rw [hval] at hd hgt
  norm_num at hd hgt
  have hlt : m < 2 ^ 53 := by
    have hcast : (m : ℚ) < 2 ^ 53 := by linarith
    exact_mod_cast hcast
  have hgt' : 2 ^ 53 < m + 1 := by
    have hcast : (2 : ℚ) ^ 53 < m + 1 := by linarith
    exact_mod_cast hcast
  omega

/-- The product stays below the number, though both are rounded. -/
theorem Double.natCast_mul_lt {n : Nat} (hn : 0 < n) {d : Double} (hd : d.val < 1) :
    ((n : Double) * d).val < n := by
  rw [val_mul, val_natCast]
  have ha : 0 < roundDouble (n : ℚ) := by
    have hone : roundDouble ((1 : Nat) : ℚ) = (1 : Nat) := roundDouble_natCast (by decide)
    have hmono := roundDouble_mono (Nat.cast_le (α := ℚ).mpr hn)
    rw [hone, Nat.cast_one] at hmono
    exact zero_lt_one.trans_le hmono
  have hd' := d.le_of_lt_one hd
  by_contra hge
  push Not at hge
  -- then the rounded product is at least the rounded number
  have hle := roundDouble_mono hge
  rw [roundDouble_roundDouble] at hle
  generalize roundDouble (n : ℚ) = a at ha hge hle
  rcases le_or_gt (a * d.val) 0 with hy | hy
  · rw [roundDouble_of_nonpos hy] at hle
    linarith
  · have herr := (abs_le.mp (abs_roundDouble_sub_le hy.le)).2
    have hunit := (unit_bounds hy).2
    have hprod : a * d.val ≤ a * (1 - 1 / 2 ^ 53) := mul_le_mul_of_nonneg_left hd' ha.le
    linarith

/-! ## The integer below -/

/-- A rounded number keeps between the integers around it. -/
theorem floor_roundDouble_eq {y : ℚ} (hy : 0 ≤ y) (hsmall : y < 2 ^ 53) :
    ⌊roundDouble y⌋₊ = if roundDouble y = ⌊y⌋₊ + 1 then ⌊y⌋₊ + 1 else ⌊y⌋₊ := by
  have hfloor : ⌊y⌋₊ < 2 ^ 53 := (Nat.floor_lt hy).mpr (by exact_mod_cast hsmall)
  have hlo : (⌊y⌋₊ : ℚ) ≤ roundDouble y := by
    rw [← roundDouble_natCast hfloor.le]
    exact roundDouble_mono (Nat.floor_le hy)
  have hhi : roundDouble y ≤ (⌊y⌋₊ + 1 : Nat) := by
    rw [← roundDouble_natCast (n := ⌊y⌋₊ + 1) hfloor]
    exact roundDouble_mono (by exact_mod_cast (Nat.lt_floor_add_one y).le)
  push_cast at hhi
  split_ifs with heq
  · rw [heq]
    exact_mod_cast Nat.floor_natCast (⌊y⌋₊ + 1)
  · exact (Nat.floor_eq_iff (roundDouble_nonneg y)).mpr ⟨hlo, lt_of_le_of_ne hhi heq⟩

theorem gap {z : ℚ} {q : Nat} (hz : 0 ≤ z) (hq : q ≤ 100) (h : 1 ≤ z * q) : 1 / 100 ≤ z := by
  have hcast : (q : ℚ) ≤ 100 := by exact_mod_cast hq
  have hle : z * q ≤ z * 100 := mul_le_mul_of_nonneg_left hcast hz
  linarith

/-- A fraction that is not an integer keeps its distance from both neighbours. -/
theorem floor_gaps {x : ℚ} {q : Nat} (hx : 0 ≤ x) (hq : 0 < q) (hq' : q ≤ 100)
    (hfrac : ∃ k : Nat, x * q = k) (hint : x ≠ ⌊x⌋₊) :
    (⌊x⌋₊ : ℚ) + 1 / 100 ≤ x ∧ x + 1 / 100 ≤ ⌊x⌋₊ + 1 := by
  obtain ⟨k, hk⟩ := hfrac
  have hqpos : (0 : ℚ) < q := by exact_mod_cast hq
  have hlt : (⌊x⌋₊ : ℚ) < x := lt_of_le_of_ne (Nat.floor_le hx) (Ne.symm hint)
  have hlt' : x < ⌊x⌋₊ + 1 := Nat.lt_floor_add_one x
  have hlo : ⌊x⌋₊ * q + 1 ≤ k := by
    have hmul := mul_lt_mul_of_pos_right hlt hqpos
    rw [hk] at hmul
    exact_mod_cast hmul
  have hhi : k + 1 ≤ (⌊x⌋₊ + 1) * q := by
    have hmul := mul_lt_mul_of_pos_right hlt' hqpos
    rw [hk] at hmul
    exact_mod_cast hmul
  have hlo' : (⌊x⌋₊ : ℚ) * q + 1 ≤ x * q := by
    rw [hk]
    exact_mod_cast hlo
  have hhi' : x * q + 1 ≤ ((⌊x⌋₊ : ℚ) + 1) * q := by
    rw [hk]
    exact_mod_cast hhi
  have hbelow := gap (z := x - ⌊x⌋₊) (by linarith) hq' (by linarith)
  have habove := gap (z := ⌊x⌋₊ + 1 - x) (by linarith) hq' (by linarith)
  constructor <;> linarith

/-- A fraction `x` of a denominator up to 100, and a number so close to it that rounding
comes back to an integer. -/
theorem floor_roundDouble {x y : ℚ} {q : Nat} (hq : 0 < q) (hq' : q ≤ 100) (hx : 0 < x)
    (hsmall : x ≤ 2 ^ 40) (hfrac : ∃ k : Nat, x * q = k) (hclose : |y - x| ≤ x / 2 ^ 55) :
    ⌊roundDouble y⌋₊ = ⌊x⌋₊ := by
  obtain ⟨hlo, hhi⟩ := abs_le.mp hclose
  have hy : 0 < y := by linarith
  obtain ⟨hunit, hunit'⟩ := unit_bounds hy
  by_cases hint : x = ⌊x⌋₊
  · -- half a unit is more than the distance
    have hround : roundDouble y = (⌊x⌋₊ : Nat) := by
      refine roundDouble_near (lastExp_nonpos hy (by linarith)) ?_
      rw [← hint]
      linarith
    rw [hround, Nat.floor_natCast]
  · obtain ⟨hbelow, habove⟩ := floor_gaps hx.le hq hq' hfrac hint
    obtain ⟨herr, herr'⟩ := abs_le.mp (abs_roundDouble_sub_le hy.le)
    have hnonneg : (0 : ℚ) ≤ ⌊x⌋₊ := Nat.cast_nonneg _
    refine (Nat.floor_eq_iff (by linarith)).mpr ⟨by linarith, by linarith⟩

end DoubleRounding
end HoloMarket
