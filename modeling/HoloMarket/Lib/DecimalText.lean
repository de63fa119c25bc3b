import Mathlib.Algebra.Order.Floor.Semiring
import Mathlib.Algebra.Order.Field.Basic
import Mathlib.Data.Int.Log
import Mathlib.Data.List.DropRight
import Mathlib.Tactic.FieldSimp
import Mathlib.Tactic.Linarith
import Mathlib.Tactic.Ring

/-!
# DecimalText: rounding and decimal texts

A magnitude is rounded half to even, to a number of decimals or to a number of
significant digits, and written out in digits.  `read` is the number a text says,
so that writing and reading can be compared with the rounding.
-/

namespace HoloMarket
namespace DecimalText

/-! ## Digits -/

/-- The last `d` digits of `n`. -/
def lastDigits : Nat → Nat → List Char
  | 0, _ => []
  | d + 1, n => lastDigits d (n / 10) ++ [Nat.digitChar (n % 10)]

/-- The fraction, after a point unless there is none. -/
def point : List Char → List Char
  | [] => []
  | f :: fs => '.' :: f :: fs

def stripZeros (fs : List Char) : List Char := fs.rdropWhile (· = '0')

/-- `n / 10 ^ d` with `d` decimals. -/
def fixed (d n : Nat) : List Char := Nat.toDigits 10 (n / 10 ^ d) ++ point (lastDigits d n)

/-- The same without zeros at the end of the fraction. -/
def shortest (d n : Nat) : List Char :=
  Nat.toDigits 10 (n / 10 ^ d) ++ point (stripZeros (lastDigits d n))

theorem length_lastDigits (d n : Nat) : (lastDigits d n).length = d := by
  induction d generalizing n with
  | zero => rfl
  | succ d ih => rw [lastDigits, List.length_append, ih, List.length_singleton]

theorem isDigit_of_mem_lastDigits {d n : Nat} {c : Char} (hc : c ∈ lastDigits d n) :
    c.isDigit = true := by
  induction d generalizing n with
  | zero => cases hc
  | succ d ih =>
    rcases List.mem_append.mp hc with hc | hc
    · exact ih hc
    · rw [List.mem_singleton.mp hc]
      exact Nat.isDigit_digitChar.trans (decide_eq_true (Nat.mod_lt n (by decide)))

theorem isDigit_of_mem_toDigits {n : Nat} {c : Char} (hc : c ∈ Nat.toDigits 10 n) :
    c.isDigit = true :=
  Nat.isDigit_of_mem_toDigits (by decide) (by decide) hc

theorem ofDigitChars_lastDigits (d n : Nat) :
    Nat.ofDigitChars 10 (lastDigits d n) 0 = n % 10 ^ d := by
  induction d generalizing n with
  | zero => exact (Nat.mod_one n).symm
  | succ d ih =>
    rw [lastDigits, Nat.ofDigitChars_append, ih,
      Nat.ofDigitChars_cons_digitChar_of_lt_ten (Nat.mod_lt n (by decide)),
      Nat.ofDigitChars_nil, pow_succ', Nat.mod_mul, add_comm]

theorem mem_point {fs : List Char} {c : Char} (hc : c ∈ point fs) : c = '.' ∨ c ∈ fs := by
  cases fs with
  | nil => cases hc
  | cons f fs => exact List.mem_cons.mp hc

theorem stripZeros_prefix (fs : List Char) : stripZeros fs <+: fs := List.rdropWhile_prefix _ _

/-! ## What a text says -/

section Read

variable {K : Type*} [Field K]

/-- The number with the whole digits `ws` and the fraction digits `fs`. -/
def value (ws fs : List Char) : K :=
  Nat.ofDigitChars 10 ws 0 + Nat.ofDigitChars 10 fs 0 / (10 ^ fs.length : Nat)

theorem value_eq (ws fs : List Char) : (value ws fs : K) =
    Nat.ofDigitChars 10 ws 0 + Nat.ofDigitChars 10 fs 0 / 10 ^ fs.length := by
  rw [value, Nat.cast_pow, Nat.cast_ofNat]

def readUnsigned (cs : List Char) : Option K :=
  if cs.takeWhile Char.isDigit = [] then none
  else match cs.dropWhile Char.isDigit with
    | [] => some (value (cs.takeWhile Char.isDigit) [])
    | c :: fs =>
      if c = '.' ∧ fs ≠ [] ∧ fs.all Char.isDigit then
        some (value (cs.takeWhile Char.isDigit) fs)
      else none

/-- The number a decimal text denotes. -/
def read (cs : List Char) : Option K :=
  if cs.head? = some '-' then (readUnsigned cs.tail).map fun x => -x else readUnsigned cs

omit [Field K] in
theorem takeWhile_point {ws : List Char} (hws : ∀ c ∈ ws, c.isDigit = true) (fs : List Char) :
    (ws ++ point fs).takeWhile Char.isDigit = ws := by
  rw [List.takeWhile_append_of_pos hws]
  cases fs with
  | nil => exact List.append_nil ws
  | cons f fs => exact List.append_nil ws

omit [Field K] in
theorem dropWhile_point {ws : List Char} (hws : ∀ c ∈ ws, c.isDigit = true) (fs : List Char) :
    (ws ++ point fs).dropWhile Char.isDigit = point fs := by
  rw [List.dropWhile_append_of_pos hws]
  cases fs <;> rfl

theorem readUnsigned_point {ws fs : List Char} (hne : ws ≠ [])
    (hws : ∀ c ∈ ws, c.isDigit = true) (hfs : ∀ c ∈ fs, c.isDigit = true) :
    readUnsigned (ws ++ point fs) = some (value ws fs : K) := by
  unfold readUnsigned
  rw [takeWhile_point hws, dropWhile_point hws, if_neg hne]
  cases fs with
  | nil => rfl
  | cons f fs => exact if_pos ⟨rfl, List.cons_ne_nil f fs, List.all_eq_true.mpr hfs⟩

theorem read_point {ws fs : List Char} (hne : ws ≠ []) (hws : ∀ c ∈ ws, c.isDigit = true)
    (hfs : ∀ c ∈ fs, c.isDigit = true) : read (ws ++ point fs) = some (value ws fs : K) := by
  have hsign : (ws ++ point fs).head? ≠ some '-' := by
    cases ws with
    | nil => exact absurd rfl hne
    | cons w ws =>
      intro h
      have hw := hws w List.mem_cons_self
      rw [Option.some.inj h] at hw
      exact absurd hw (by decide)
  unfold read
  rw [if_neg hsign]
  exact readUnsigned_point hne hws hfs

variable [CharZero K]

theorem value_digits (d n : Nat) :
    value (Nat.toDigits 10 (n / 10 ^ d)) (lastDigits d n) = (n : K) / 10 ^ d := by
  have hpow : (10 : K) ^ d ≠ 0 := pow_ne_zero d (by norm_num)
  have hsplit : ((n / 10 ^ d : Nat) : K) * 10 ^ d + ((n % 10 ^ d : Nat) : K) = n := by
    exact_mod_cast Nat.div_add_mod' n (10 ^ d)
  rw [value_eq, Nat.ofDigitChars_ten_toDigits, ofDigitChars_lastDigits, length_lastDigits,
    eq_div_iff hpow, add_mul, div_mul_cancel₀ _ hpow]
  exact hsplit

/-- A zero at the end of the fraction says nothing. -/
theorem value_stripZeros (ws fs : List Char) : value ws (stripZeros fs) = (value ws fs : K) := by
  unfold stripZeros
  induction fs using List.reverseRecOn with
  | nil => rfl
  | append_singleton fs f ih =>
    by_cases hf : f = '0'
    · rw [List.rdropWhile_concat_pos _ _ _ (by simpa using hf), ih]
      have hzero : Nat.ofDigitChars 10 (fs ++ [f]) 0 = Nat.ofDigitChars 10 fs 0 * 10 := by
        rw [hf, Nat.ofDigitChars_append, Nat.ofDigitChars_cons, Nat.ofDigitChars_nil, mul_comm]
        rfl
      rw [value_eq, value_eq, hzero, List.length_append, List.length_singleton, Nat.cast_mul,
        Nat.cast_ofNat, pow_succ, mul_div_mul_right _ _ (by norm_num : (10 : K) ≠ 0)]
    · rw [List.rdropWhile_concat_neg _ _ _ (by simpa using hf)]

theorem value_shortest (d n : Nat) :
    value (Nat.toDigits 10 (n / 10 ^ d)) (stripZeros (lastDigits d n)) = (n : K) / 10 ^ d :=
  (value_stripZeros _ _).trans (value_digits d n)

theorem read_fixed (d n : Nat) : read (fixed d n) = some ((n : K) / 10 ^ d) := by
  rw [← value_digits]
  exact read_point Nat.toDigits_ne_nil (fun c => isDigit_of_mem_toDigits)
    fun c => isDigit_of_mem_lastDigits

end Read

/-! ## Rounding -/

section Round

variable {K : Type*} [Field K] [LinearOrder K] [FloorSemiring K]

/-- The nearest natural number, of two the even one. -/
def roundEven (x : K) : Nat :=
  let n := ⌊x⌋₊
  if x - n < 1 / 2 then n
  else if 1 / 2 < x - n then n + 1
  else if n % 2 = 0 then n else n + 1

variable [IsStrictOrderedRing K]

theorem roundEven_natCast (n : Nat) : roundEven (n : K) = n := by
  unfold roundEven
  simp only [Nat.floor_natCast, sub_self]
  exact if_pos (by norm_num)

omit [IsStrictOrderedRing K] in
theorem roundEven_eq_or (x : K) : roundEven x = ⌊x⌋₊ ∨ roundEven x = ⌊x⌋₊ + 1 := by
  unfold roundEven
  dsimp only
  split_ifs
  · exact Or.inl rfl
  · exact Or.inr rfl
  · exact Or.inl rfl
  · exact Or.inr rfl

/-- Rounding keeps between two natural numbers. -/
theorem roundEven_mem {x : K} {a b : Nat} (ha : (a : K) ≤ x) (hb : x < b) :
    a ≤ roundEven x ∧ roundEven x ≤ b := by
  have hx : 0 ≤ x := (Nat.cast_nonneg a).trans ha
  have hfa : a ≤ ⌊x⌋₊ := Nat.le_floor ha
  have hfb : ⌊x⌋₊ < b := (Nat.floor_lt hx).mpr hb
  rcases roundEven_eq_or x with h | h <;> omega

theorem roundEven_mono {x y : K} (h : x ≤ y) : roundEven x ≤ roundEven y := by
  rcases Nat.lt_or_eq_of_le (Nat.floor_mono h) with hlt | heq
  · rcases roundEven_eq_or x with hx | hx <;> rcases roundEven_eq_or y with hy | hy <;> omega
  · unfold roundEven
    dsimp only
    rw [heq]
    split_ifs
    all_goals first | omega | linarith

/-- Less than half a unit away, a natural number is the nearest. -/
theorem roundEven_near {x : K} {n : Nat} (h : |x - n| < 1 / 2) : roundEven x = n := by
  obtain ⟨hlo, hhi⟩ := abs_lt.mp h
  unfold roundEven
  dsimp only
  rcases le_or_gt (n : K) x with hx | hx
  · have hfloor : ⌊x⌋₊ = n :=
      (Nat.floor_eq_iff ((Nat.cast_nonneg n).trans hx)).mpr ⟨hx, by linarith⟩
    rw [hfloor, if_pos hhi]
  · cases n with
    | zero =>
      rw [Nat.cast_zero] at hx
      have hfloor : ⌊x⌋₊ = 0 := Nat.floor_of_nonpos hx.le
      rw [hfloor, if_pos (by rw [Nat.cast_zero, sub_zero]; linarith)]
    | succ m =>
      push_cast at hlo hx
      have hm : (m : K) ≤ x := by linarith
      have hfloor : ⌊x⌋₊ = m :=
        (Nat.floor_eq_iff ((Nat.cast_nonneg m).trans hm)).mpr ⟨hm, hx⟩
      rw [hfloor, if_neg (by linarith), if_pos (by linarith)]

/-- An even number is reached from half a unit below. -/
theorem roundEven_eq_succ_iff {x : K} {n : Nat} (hn : n % 2 = 1) (hx : (n : K) ≤ x)
    (hlt : x < (n + 1 : Nat)) : roundEven x = n + 1 ↔ n + 1 / 2 ≤ x := by
  have hfloor : ⌊x⌋₊ = n := by
    refine (Nat.floor_eq_iff ((Nat.cast_nonneg n).trans hx)).mpr ⟨hx, ?_⟩
    exact_mod_cast hlt
  unfold roundEven
  dsimp only
  rw [hfloor]
  split_ifs with h₁ h₂ h₃
  · exact iff_of_false (by omega) (by linarith)
  · exact iff_of_true rfl (by linarith)
  · omega
  · exact iff_of_true rfl (by linarith)

/-! ## Significant digits -/

/-- The digits and the exponent of `x` to `q + 1` significant digits. -/
def sci (q : Nat) (x : K) : Nat × Int :=
  let e := Int.log 10 x
  let m := roundEven (x / 10 ^ (e - q))
  if m = 10 ^ (q + 1) then (10 ^ q, e + 1) else (m, e)

/-- `x` rounded to `q + 1` significant digits. -/
def roundSig (q : Nat) (x : K) : K :=
  roundEven (x / 10 ^ (Int.log 10 x - q)) * 10 ^ (Int.log 10 x - q)

variable {q : Nat} {x : K}

omit [IsStrictOrderedRing K] in
theorem sci_value (q : Nat) (x : K) :
    ((sci q x).1 : K) * 10 ^ ((sci q x).2 - q) = roundSig q x := by
  unfold sci roundSig
  dsimp only
  split_ifs with h
  · rw [h]
    push_cast
    rw [add_sub_right_comm, zpow_add_one₀ (by norm_num), pow_succ]
    ring
  · rfl

theorem scaled_mem (q : Nat) (hx : 0 < x) :
    ((10 ^ q : Nat) : K) ≤ x / 10 ^ (Int.log 10 x - q) ∧
      x / 10 ^ (Int.log 10 x - q) < (10 ^ (q + 1) : Nat) := by
  have hpos : (0 : K) < 10 ^ (Int.log 10 x - q) := zpow_pos (by norm_num) _
  have hle := Int.zpow_log_le_self (b := 10) (by decide) hx
  have hlt := Int.lt_zpow_succ_log_self (b := 10) (by decide) x
  push_cast at hle hlt ⊢
  rw [le_div_iff₀ hpos, div_lt_iff₀ hpos, ← zpow_natCast, ← zpow_natCast,
    ← zpow_add₀ (by norm_num), ← zpow_add₀ (by norm_num)]
  constructor
  · rwa [add_sub_cancel]
  · convert hlt using 2
    push_cast
    ring

theorem sci_digits (q : Nat) (hx : 0 < x) :
    10 ^ q ≤ (sci q x).1 ∧ (sci q x).1 < 10 ^ (q + 1) := by
  obtain ⟨hle, hlt⟩ := scaled_mem q hx
  obtain ⟨hm, hm'⟩ := roundEven_mem hle hlt
  unfold sci
  dsimp only
  split_ifs with h
  · exact ⟨le_rfl, Nat.pow_lt_pow_succ (by decide)⟩
  · exact ⟨hm, lt_of_le_of_ne hm' h⟩

/-- The digits round up to the next power of ten from half a unit below. -/
theorem roundEven_scaled_iff (q : Nat) (hx : 0 < x) :
    roundEven (x / 10 ^ (Int.log 10 x - q)) = 10 ^ (q + 1) ↔
      (10 ^ (q + 1) - 1 / 2) * 10 ^ (Int.log 10 x - q) ≤ x := by
  have hpos : (0 : K) < 10 ^ (Int.log 10 x - q) := zpow_pos (by norm_num) _
  rw [← le_div_iff₀ hpos]
  obtain ⟨hle, hlt⟩ := scaled_mem q hx
  generalize x / 10 ^ (Int.log 10 x - q) = y at hle hlt ⊢
  obtain ⟨n, hn⟩ : ∃ n, 10 ^ (q + 1) = n + 1 := ⟨10 ^ (q + 1) - 1, by
    have hten : 0 < 10 ^ (q + 1) := Nat.pow_pos (by decide)
    omega⟩
  have hcast : (10 : K) ^ (q + 1) = n + 1 := by exact_mod_cast congrArg (Nat.cast (R := K)) hn
  have hodd : n % 2 = 1 := by
    rw [pow_succ] at hn
    omega
  rw [hn] at hlt ⊢
  rw [hcast, show (n : K) + 1 - 1 / 2 = n + 1 / 2 by ring]
  rcases le_or_gt (n : K) y with hny | hyn
  · exact roundEven_eq_succ_iff hodd hny hlt
  · have hm := (roundEven_mem hle hyn).2
    exact iff_of_false (by omega) (by linarith)

omit [IsStrictOrderedRing K] in
theorem sci_exponent (q : Nat) (x : K) :
    (sci q x).2 = Int.log 10 x ∨
      (sci q x).2 = Int.log 10 x + 1 ∧ roundEven (x / 10 ^ (Int.log 10 x - q)) = 10 ^ (q + 1) := by
  unfold sci
  dsimp only
  split_ifs with h
  · exact Or.inr ⟨rfl, h⟩
  · exact Or.inl rfl

/-- The exponent is above `k` from half a unit below `10 ^ (k + 1)`. -/
theorem le_sci_exponent_iff (q : Nat) (hx : 0 < x) (k : Int) :
    k + 1 ≤ (sci q x).2 ↔ (10 ^ (q + 1) - 1 / 2) * 10 ^ (k - q) ≤ x := by
  have hpos : (0 : K) < 10 ^ (k - q) := zpow_pos (by norm_num) _
  have hone : (1 : K) ≤ 10 ^ q := one_le_pow₀ (by norm_num)
  have hexp := sci_exponent q x
  have hsplit : ∀ j : Nat, (10 : K) ^ j * 10 ^ (k - q) = 10 ^ (j + (k - q)) := fun j => by
    rw [← zpow_natCast, ← zpow_add₀ (by norm_num)]
  rcases lt_trichotomy k (Int.log 10 x) with hlt | rfl | hgt
  · refine iff_of_true (by omega) ?_
    have hle : (10 : K) ^ (k + 1) ≤ x :=
      (Int.zpow_le_iff_le_log (b := 10) (by decide) hx).mpr hlt
    have hk := hsplit (q + 1)
    rw [show ((q + 1 : Nat) : Int) + (k - q) = k + 1 by push_cast; ring] at hk
    calc (10 ^ (q + 1) - 1 / 2) * 10 ^ (k - q) ≤ 10 ^ (q + 1) * 10 ^ (k - q) :=
          mul_le_mul_of_nonneg_right (by linarith) hpos.le
      _ ≤ x := hk.trans_le hle
  · rw [← roundEven_scaled_iff q hx]
    unfold sci
    dsimp only
    split_ifs with h
    · exact iff_of_true le_rfl h
    · exact iff_of_false (by omega) h
  · refine iff_of_false (by omega) (not_le.mpr ?_)
    have hxk : x < (10 : K) ^ k := (Int.lt_zpow_iff_log_lt (b := 10) (by decide) hx).mpr hgt
    have hk := hsplit q
    rw [show (q : Int) + (k - q) = k by ring] at hk
    calc x < 10 ^ q * 10 ^ (k - q) := hk.symm ▸ hxk
      _ ≤ (10 ^ (q + 1) - 1 / 2) * 10 ^ (k - q) :=
          mul_le_mul_of_nonneg_right (by rw [pow_succ]; linarith) hpos.le

/-- `e+08`: the exponent has two digits at least. -/
def exponent (e : Int) : List Char :=
  'e' :: (if e < 0 then '-' else '+') ::
    (if e.natAbs < 10 then ['0'] else []) ++ Nat.toDigits 10 e.natAbs

/-- `%g` with `q + 1` digits: an exponent is written where it is below `-4` or
above `q`. -/
def general (q : Nat) (x : K) : List Char :=
  let (m, e) := sci q x
  if -4 ≤ e ∧ e ≤ q then shortest (q - e).toNat m else shortest q m ++ exponent e

/-- `%.*f`. -/
def fixedPoint (d : Nat) (x : K) : List Char :=
  (if x < 0 then ['-'] else []) ++ fixed d (roundEven (|x| * 10 ^ d))

omit [LinearOrder K] [FloorSemiring K] [IsStrictOrderedRing K] in
theorem div_decimals {m : Nat} {e : Int} (he : e ≤ q) :
    (m : K) / 10 ^ (q - e).toNat = m * 10 ^ (e - q) := by
  have hd : ((q - e).toNat : Int) = q - e := Int.toNat_of_nonneg (by omega)
  rw [← zpow_natCast, hd, div_eq_mul_inv, ← zpow_neg, neg_sub]

theorem sci_zero (q : Nat) : sci q (0 : K) = (0, 0) := by
  have hz : roundEven (0 / 10 ^ (Int.log 10 (0 : K) - q) : K) = 0 := by
    rw [zero_div]
    exact_mod_cast roundEven_natCast (K := K) 0
  unfold sci
  dsimp only
  rw [hz, if_neg (Nat.pow_pos (by decide)).ne, Int.log_zero_right]

/-- What is a multiple of the last decimal is written as it is. -/
theorem read_fixedPoint_iff (d : Nat) (hx : 0 ≤ x) :
    read (fixedPoint d x) = some x ↔ ∃ n : Nat, x * 10 ^ d = n := by
  have hpow : (10 : K) ^ d ≠ 0 := pow_ne_zero d (by norm_num)
  unfold fixedPoint
  rw [if_neg hx.not_gt, List.nil_append, abs_of_nonneg hx, read_fixed, Option.some_inj,
    div_eq_iff hpow]
  constructor
  · exact fun h => ⟨_, h.symm⟩
  · rintro ⟨n, hn⟩
    rw [hn, roundEven_natCast]

end Round

end DecimalText
end HoloMarket
