import HoloMarket.Net.RowIsolation

/-!
# The numeric fields of a CSV row

The digit loops of `parse_u64` and `parse_u32` accumulate modulo the width of
their result, and the range check of the row loop sees only what is left.  A row
is read faithfully exactly when its two numbers fit their widths or the row is
refused all the same.
-/

namespace HoloMarket
namespace Csv

/-- A row whose first two fields are digit strings, of any length: the
timestamp, a comma, the instrument and the rest of the file. -/
structure NumericRow where
  ts : List UInt8
  instrument : List UInt8
  rest : List UInt8
  ts_digits : ∀ b ∈ ts, isDigit b
  instrument_digits : ∀ b ∈ instrument, isDigit b
  rest_stop : ∀ b ∈ rest.head?, isDigit b = false

namespace NumericRow

def text (r : NumericRow) : List UInt8 :=
  r.ts ++ Ascii.comma :: (r.instrument ++ r.rest)

section Fields

variable {K : Type*} [NatCast K] [Add K] [Mul K] [OfScientific K]

/-- The bid price, as `parse_float` reads it behind the instrument. -/
def bidPrice (r : NumericRow) : K :=
  (parseFloat (skipComma r.rest)).1

/-- The ask price, two fields further on. -/
def askPrice (r : NumericRow) : K :=
  (parseFloat (skipComma (parseFloat (K := K)
    (skipComma (parseFloat (K := K) (skipComma r.rest)).2)).2)).1

theorem parseFields_text (r : NumericRow) :
    (parseFields (K := K) r.text).1.tsNs = UInt64.ofNat (digitsValue r.ts) ∧
      (parseFields (K := K) r.text).1.instrId = UInt32.ofNat (digitsValue r.instrument) ∧
      (parseFields (K := K) r.text).1.bidPrice = r.bidPrice ∧
      (parseFields (K := K) r.text).1.askPrice = r.askPrice := by
  have hcomma : ∀ b ∈ (Ascii.comma :: (r.instrument ++ r.rest)).head?, isDigit b = false := by
    intro b hb
    obtain rfl : Ascii.comma = b := Option.some.inj hb
    decide
  have hskip : skipComma (Ascii.comma :: (r.instrument ++ r.rest)) = r.instrument ++ r.rest :=
    if_pos rfl
  unfold parseFields text
  rw [parseU64_digits r.ts_digits hcomma]
  dsimp only
  rw [hskip, parseU32_digits r.instrument_digits r.rest_stop]
  exact ⟨rfl, rfl, rfl, rfl⟩

/-- A line without a timestamp is taken for a header. -/
theorem isHeader_text_iff (r : NumericRow) : isHeader r.text = true ↔ r.ts = [] := by
  unfold text
  have hdigits := r.ts_digits
  revert hdigits
  generalize r.ts = ts
  intro hdigits
  cases ts with
  | nil =>
    show (isHeader (Ascii.comma :: _) = true) ↔ _
    simp [isHeader, Ascii.comma, Ascii.space, Ascii.carriageReturn, Ascii.newline, Ascii.minus,
      isDigit, Ascii.zero]
  | cons b ts =>
    have hnot := not_isHeader_of_isDigit (hdigits b List.mem_cons_self)
      (ts ++ Ascii.comma :: (r.instrument ++ r.rest))
    exact iff_of_false hnot (List.cons_ne_nil _ _)

variable [BEq K]

/-- The check of the row loop: a price reads as zero or what is left of the
instrument is out of range. -/
def Refused (K : Type*) [NatCast K] [Add K] [Mul K] [OfScientific K] [BEq K]
    (r : NumericRow) : Prop :=
  (r.bidPrice == ((0 : Nat) : K)) = true ∨ (r.askPrice == ((0 : Nat) : K)) = true ∨
    kMaxInstruments ≤ digitsValue r.instrument % 2 ^ 32

omit [Add K] [Mul K] [OfScientific K] in
theorem outcome_cases (f : Fields K) :
    let check := (f.bidPrice == ((0 : Nat) : K) || f.askPrice == ((0 : Nat) : K) ||
      decide (kMaxInstruments ≤ f.instrId.toNat)) = true
    (check → f.outcome = .parseError) ∧
      (¬ check → ∃ bid ask, f.outcome = .quote bid ask ∧
        ∀ u ∈ [bid, ask], u.timestampNs = f.tsNs ∧ u.instrumentId = f.instrId) := by
  intro check
  refine ⟨fun h => if_pos h, fun h => ⟨_, _, if_neg h, ?_⟩⟩
  rw [List.forall_mem_cons, List.forall_mem_singleton]
  exact ⟨⟨rfl, rfl⟩, rfl, rfl⟩

theorem check_iff_refused (r : NumericRow) :
    ((parseFields (K := K) r.text).1.bidPrice == ((0 : Nat) : K) ||
      (parseFields (K := K) r.text).1.askPrice == ((0 : Nat) : K) ||
      decide (kMaxInstruments ≤ (parseFields (K := K) r.text).1.instrId.toNat)) = true ↔
      r.Refused K := by
  have hread := r.parseFields_text (K := K)
  have hleft : (UInt32.ofNat (digitsValue r.instrument)).toNat =
      digitsValue r.instrument % 2 ^ 32 := UInt32.toNat_ofNat
  rw [hread.2.1, hread.2.2.1, hread.2.2.2, hleft, Bool.or_eq_true, Bool.or_eq_true,
    decide_eq_true_iff, or_assoc]
  rfl

/-- An update carries the numbers that the two digit strings denote. -/
def Carried (r : NumericRow) (u : LobUpdate K) : Prop :=
  u.timestampNs.toNat = digitsValue r.ts ∧ u.instrumentId.toNat = digitsValue r.instrument

/-- The row pushes updates with the numbers of its fields, or it is counted as
an error and pushes nothing. -/
def ReadFaithfully (K : Type*) [NatCast K] [Add K] [Mul K] [OfScientific K] [BEq K]
    (r : NumericRow) : Prop :=
  (∃ bid ask, (csvRow (K := K) r.text).1 = .quote bid ask ∧
    ∀ u ∈ [bid, ask], r.Carried u) ∨
  (csvRow (K := K) r.text).1.isParseError = true ∧ (csvRow (K := K) r.text).1.updates = []

omit [NatCast K] [Add K] [Mul K] [OfScientific K] [BEq K] in
theorem carried_iff (r : NumericRow) {u : LobUpdate K}
    (hts : u.timestampNs = UInt64.ofNat (digitsValue r.ts))
    (hinstr : u.instrumentId = UInt32.ofNat (digitsValue r.instrument)) :
    r.Carried u ↔ digitsValue r.ts < 2 ^ 64 ∧ digitsValue r.instrument < 2 ^ 32 := by
  have hts' : (UInt64.ofNat (digitsValue r.ts)).toNat = digitsValue r.ts % 2 ^ 64 :=
    UInt64.toNat_ofNat
  have hinstr' : (UInt32.ofNat (digitsValue r.instrument)).toNat =
      digitsValue r.instrument % 2 ^ 32 := UInt32.toNat_ofNat
  unfold Carried
  rw [hts, hinstr, hts', hinstr', Nat.mod_eq_iff_lt (by decide), Nat.mod_eq_iff_lt (by decide)]

theorem csvRow_refused (r : NumericRow) (hts : r.ts ≠ []) (h : r.Refused K) :
    (csvRow (K := K) r.text).1 = .parseError := by
  rw [csvRow_row (mt r.isHeader_text_iff.mp hts)]
  exact (outcome_cases _).1 (r.check_iff_refused.mpr h)

theorem csvRow_accepted (r : NumericRow) (hts : r.ts ≠ []) (h : ¬ r.Refused K) :
    ∃ bid ask, (csvRow (K := K) r.text).1 = .quote bid ask ∧
      ∀ u ∈ [bid, ask], r.Carried u ↔
        digitsValue r.ts < 2 ^ 64 ∧ digitsValue r.instrument < 2 ^ 32 := by
  have hread := r.parseFields_text (K := K)
  obtain ⟨bid, ask, hrow, hnum⟩ := (outcome_cases _).2 (mt r.check_iff_refused.mp h)
  refine ⟨bid, ask, ?_, fun u hu => ?_⟩
  · rw [csvRow_row (mt r.isHeader_text_iff.mp hts)]
    exact hrow
  · exact r.carried_iff ((hnum u hu).1.trans hread.1) ((hnum u hu).2.trans hread.2.1)

theorem readFaithfully_iff_of_ts (r : NumericRow) (hts : r.ts ≠ []) :
    r.ReadFaithfully K ↔
      r.Refused K ∨ digitsValue r.ts < 2 ^ 64 ∧ digitsValue r.instrument < 2 ^ 32 := by
  by_cases h : r.Refused K
  · have hrow := r.csvRow_refused hts h
    refine iff_of_true (Or.inr ?_) (Or.inl h)
    rw [hrow]
    exact ⟨rfl, rfl⟩
  · obtain ⟨bid, ask, hrow, hcarried⟩ := r.csvRow_accepted hts h
    constructor
    · rintro (⟨b, a, hquote, hfaithful⟩ | ⟨herror, -⟩)
      · obtain ⟨rfl, rfl⟩ := Outcome.quote.inj (hrow.symm.trans hquote)
        exact Or.inr ((hcarried bid List.mem_cons_self).mp (hfaithful bid List.mem_cons_self))
      · rw [hrow] at herror
        cases herror
    · rintro (hrefused | hfits)
      · exact absurd hrefused h
      · exact Or.inl ⟨bid, ask, hrow, fun u hu => (hcarried u hu).mpr hfits⟩

/-- A line without a timestamp is a header.  Any other row with digits for its
timestamp and its instrument is read faithfully exactly when it is refused or
the two numbers fit their widths, and then no number out of range produces an
update. -/
theorem readFaithfully_iff (r : NumericRow) :
    (r.ts = [] → (csvRow (K := K) r.text).1 = .header) ∧
    (r.ts ≠ [] → (r.ReadFaithfully K ↔
      r.Refused K ∨ digitsValue r.ts < 2 ^ 64 ∧ digitsValue r.instrument < 2 ^ 32)) ∧
    (r.ReadFaithfully K → kMaxInstruments ≤ digitsValue r.instrument →
      (csvRow (K := K) r.text).1.updates = []) := by
  have hheader : r.ts = [] → (csvRow (K := K) r.text).1 = .header := by
    intro hts
    rw [csvRow_header (r.isHeader_text_iff.mpr hts)]
  refine ⟨hheader, r.readFaithfully_iff_of_ts, fun hread hrange => ?_⟩
  by_cases hts : r.ts = []
  · rw [hheader hts]
    rfl
  · rcases (r.readFaithfully_iff_of_ts hts).mp hread with hrefused | hfits
    · rw [r.csvRow_refused hts hrefused]
      rfl
    · -- a number that fits is out of range before and after the reduction
      have hrefused : r.Refused K := by
        refine Or.inr (Or.inr ?_)
        rwa [Nat.mod_eq_of_lt hfits.2]
      rw [r.csvRow_refused hts hrefused]
      rfl

end Fields

/-- The row `7,4294967297,1,1,1,1`: the instrument reads as 1. -/
def wrapped : NumericRow where
  ts := [55]
  instrument := [52, 50, 57, 52, 57, 54, 55, 50, 57, 55]
  rest := [44, 49, 44, 49, 44, 49, 44, 49, 10]
  ts_digits := List.all_eq_true.mp rfl
  instrument_digits := List.all_eq_true.mp rfl
  rest_stop := by
    rintro b ⟨⟩
    rfl

/-- An instrument far out of range produces updates of instrument 1. -/
theorem wrapped_not_faithful :
    digitsValue wrapped.instrument = 4294967297 ∧
    (csvRow (K := ℚ) wrapped.text).1.updates.map LobUpdate.instrumentId = [1, 1] ∧
    ¬ ∀ r : NumericRow, r.ts ≠ [] → r.ReadFaithfully ℚ := by
  have hrow : (csvRow (K := ℚ) wrapped.text).1.updates.map LobUpdate.instrumentId = [1, 1] := by
    decide +kernel
  refine ⟨by decide, hrow, fun h => ?_⟩
  rcases h wrapped (by decide) with ⟨bid, ask, hquote, hfaithful⟩ | ⟨-, hnone⟩
  · rw [hquote] at hrow
    have hid : bid.instrumentId = 1 := (List.cons.inj hrow).1
    have hcarried := (hfaithful bid List.mem_cons_self).2
    rw [hid] at hcarried
    exact absurd hcarried (by decide)
  · rw [hnone] at hrow
    cases hrow

end NumericRow
end Csv
end HoloMarket
