import Mathlib.Tactic.FieldSimp
import Mathlib.Tactic.NormNum
import Mathlib.Tactic.Ring
import HoloMarket.Net.RowIsolation

/-!
# NumberText: what `parse_float` makes of a decimal

Digits with an optional fraction, either of them possibly empty, and what `parse_float`
returns for them: in exact arithmetic the number they denote, and the text behind them.
-/

namespace HoloMarket
namespace Csv

/-- No number goes on with `tail`. -/
def EndsNumber (tail : List UInt8) : Prop :=
  ∀ b ∈ tail.head?, isDigit b = false ∧ b ≠ Ascii.dot

/-- Digits with an optional fraction. -/
structure NumberText where
  whole : List UInt8
  fraction : Option (List UInt8)
  whole_digits : ∀ b ∈ whole, isDigit b
  fraction_digits : ∀ f ∈ fraction, ∀ b ∈ f, isDigit b

namespace NumberText

def text (t : NumberText) : List UInt8 :=
  t.whole ++ t.fraction.elim [] fun f => Ascii.dot :: f

theorem numberByte (t : NumberText) : ∀ b ∈ t.text, NumberByte b :=
  numberByte_digits t.whole_digits t.fraction_digits

/-- The number that the text denotes. -/
def value (t : NumberText) : ℚ :=
  digitsValue t.whole + t.fraction.elim 0 fun f => (digitsValue f : ℚ) / 10 ^ f.length

end NumberText

/-! ## The digit loops -/

section Loops

variable {K : Type*} [NatCast K] [Add K] [Mul K] [OfScientific K]

/-- One digit of the whole part. -/
def pushWhole (out : K) (b : UInt8) : K :=
  out * ((10 : Nat) : K) + ((b - Ascii.zero).toNat : K)

/-- One digit of the fraction, of the weight `s.2`. -/
def pushFraction (s : K × K) (b : UInt8) : K × K :=
  (s.1 + ((b - Ascii.zero).toNat : K) * s.2, s.2 * 0.1)

def wholeOf (ds : List UInt8) : K := ds.foldl pushWhole ((0 : Nat) : K)

/-- What `parse_float` returns for a whole part and a fraction, in any arithmetic. -/
def floatOf (whole : List UInt8) (fraction : Option (List UInt8)) : K :=
  fraction.elim (wholeOf whole) fun f => (f.foldl pushFraction (wholeOf whole, 0.1)).1

variable {tail : List UInt8}

theorem EndsNumber.not_digit (htail : EndsNumber tail) : ∀ b ∈ tail.head?, isDigit b = false :=
  fun b hb => (htail b hb).1

theorem NumberText.parseFloat_text (t : NumberText) (htail : EndsNumber tail) :
    parseFloat (K := K) (t.text ++ tail) = (floatOf t.whole t.fraction, tail) := by
  obtain ⟨whole, fraction, hwhole, hfraction⟩ := t
  unfold parseFloat NumberText.text floatOf wholeOf
  cases fraction with
  | none =>
    dsimp only [Option.elim_none]
    rw [List.append_nil, digitLoop_digits _ hwhole htail.not_digit]
    cases tail with
    | nil => rfl
    | cons b tail => exact if_neg (htail b rfl).2
  | some f =>
    have hdot : ∀ b ∈ (Ascii.dot :: (f ++ tail)).head?, isDigit b = false := by
      rintro b ⟨⟩
      rfl
    dsimp only [Option.elim_some]
    rw [List.append_assoc, List.cons_append, digitLoop_digits _ hwhole hdot]
    show parseFraction _ (f ++ tail) = _
    unfold parseFraction
    rw [digitLoop_digits _ (hfraction f rfl) htail.not_digit]
    rfl

end Loops

/-! ## Exact arithmetic -/

theorem foldl_pushWhole (ds : List UInt8) (n : Nat) :
    ds.foldl pushWhole (n : ℚ) =
      (ds.foldl (fun n b => n * 10 + (b - Ascii.zero).toNat) n : Nat) := by
  induction ds generalizing n with
  | nil => rfl
  | cons b ds ih =>
    rw [List.foldl_cons, List.foldl_cons, ← ih, pushWhole]
    push_cast
    rfl

theorem wholeOf_eq (ds : List UInt8) : (wholeOf ds : ℚ) = digitsValue ds :=
  foldl_pushWhole ds 0

theorem foldl_digits (ds : List UInt8) (n : Nat) :
    ds.foldl (fun n b => n * 10 + (b - Ascii.zero).toNat) n =
      n * 10 ^ ds.length + digitsValue ds := by
  unfold digitsValue
  induction ds generalizing n with
  | nil => exact (Nat.mul_one n).symm
  | cons b ds ih =>
    rw [List.foldl_cons, List.foldl_cons, ih, ih (0 * 10 + _), List.length_cons, pow_succ]
    ring

theorem digitsValue_cons (b : UInt8) (ds : List UInt8) :
    digitsValue (b :: ds) = (b - Ascii.zero).toNat * 10 ^ ds.length + digitsValue ds := by
  rw [← foldl_digits, digitsValue, List.foldl_cons, Nat.zero_mul, Nat.zero_add]

/-- The weight of a digit is a tenth of that of the digit before. -/
theorem foldl_pushFraction (ds : List UInt8) (out frac : ℚ) :
    (ds.foldl pushFraction (out, frac)).1 =
      out + 10 * frac * (digitsValue ds / 10 ^ ds.length) := by
  induction ds generalizing out frac with
  | nil => simp [digitsValue]
  | cons b ds ih =>
    have hpow : (10 : ℚ) ^ ds.length ≠ 0 := pow_ne_zero _ (by norm_num)
    rw [List.foldl_cons, pushFraction, ih, digitsValue_cons, List.length_cons, pow_succ]
    push_cast
    field_simp
    ring

theorem NumberText.floatOf_eq (t : NumberText) : (floatOf t.whole t.fraction : ℚ) = t.value := by
  unfold floatOf NumberText.value
  cases t.fraction with
  | none => exact (wholeOf_eq t.whole).trans (add_zero _).symm
  | some f =>
    show (f.foldl pushFraction (wholeOf t.whole, (0.1 : ℚ))).1 = _
    rw [foldl_pushFraction, wholeOf_eq]
    norm_num

end Csv
end HoloMarket
