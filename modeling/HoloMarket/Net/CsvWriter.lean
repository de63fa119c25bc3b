import Mathlib.Data.Nat.ModEq
import Mathlib.Data.Rat.Floor
import HoloMarket.Lib.DecimalText
import HoloMarket.Net.NumberText

/-!
# CsvWriter: the rows of the downloader, and how the replay reads them

`_atomic_write_csv` of `download_binance_aggtrades_v2.py` writes a row of two
integers and four floats, the floats with `%.8g`.  The row parser of the replay
reads digits and a point, and passes over what is left up to the next comma.
-/

namespace HoloMarket
namespace Csv

/-- The bytes of a text. -/
def ascii (cs : List Char) : List UInt8 := cs.map fun c => c.toNat.toUInt8

/-- A row of the data frame: a float is a rational number that is not negative. -/
structure QuoteRow where
  timestampNs : Int
  instrumentId : Int
  bidPrice : Rat
  bidQty : Rat
  askPrice : Rat
  askQty : Rat
  nonneg : 0 ≤ bidPrice ∧ 0 ≤ bidQty ∧ 0 ≤ askPrice ∧ 0 ≤ askQty

/-- `str` of an integer. -/
def formatInt (n : Int) : List Char := (if n < 0 then ['-'] else []) ++ Nat.toDigits 10 n.natAbs

/-- `"%.8g"`. -/
def formatFloat (x : Rat) : List Char := DecimalText.general 7 x

/-- The line of a row, its columns as in `OUT_COLS`. -/
def QuoteRow.line (r : QuoteRow) : List UInt8 :=
  ascii (formatInt r.timestampNs) ++ Ascii.comma ::
    (ascii (formatInt r.instrumentId) ++ Ascii.comma ::
      (ascii (formatFloat r.bidPrice) ++ Ascii.comma ::
        (ascii (formatFloat r.bidQty) ++ Ascii.comma ::
          (ascii (formatFloat r.askPrice) ++ Ascii.comma ::
            (ascii (formatFloat r.askQty) ++ [Ascii.newline])))))

/-- `_atomic_write_csv`. -/
def atomicWriteCsv (rows : List QuoteRow) : List UInt8 := rows.flatMap QuoteRow.line

/-! ## Reading digits -/

section Digits

variable {ws fs : List Char} {tail : List UInt8}

theorem digit_byte {c : Char} (hc : c.isDigit = true) :
    isDigit c.toNat.toUInt8 = true ∧
      (c.toNat.toUInt8 - Ascii.zero).toNat = c.toNat - '0'.toNat := by
  obtain ⟨hle, hge⟩ := Char.isDigit_iff_toNat.mp hc
  replace hle : 48 ≤ c.toNat := hle
  replace hge : c.toNat ≤ 57 := hge
  have hdiff : (c.toNat.toUInt8 - Ascii.zero).toNat = c.toNat - 48 := by
    unfold Ascii.zero
    rw [UInt8.toNat_sub]
    simp
    omega
  refine ⟨?_, hdiff⟩
  unfold isDigit
  rw [decide_eq_true_eq, UInt8.lt_iff_toNat_lt, hdiff]
  show c.toNat - 48 < 10
  omega

theorem ascii_append (cs ds : List Char) : ascii (cs ++ ds) = ascii cs ++ ascii ds :=
  List.map_append

theorem length_ascii (cs : List Char) : (ascii cs).length = cs.length := List.length_map _

theorem isDigit_of_mem_ascii (hws : ∀ c ∈ ws, c.isDigit = true) :
    ∀ b ∈ ascii ws, isDigit b = true := by
  intro b hb
  obtain ⟨c, hc, rfl⟩ := List.mem_map.mp hb
  exact (digit_byte (hws c hc)).1

theorem digitsValue_ascii (hws : ∀ c ∈ ws, c.isDigit = true) :
    digitsValue (ascii ws) = Nat.ofDigitChars 10 ws 0 := by
  unfold digitsValue ascii
  rw [List.foldl_map, Nat.ofDigitChars_eq_foldl]
  refine List.foldl_ext _ _ 0 fun n c hc => ?_
  rw [(digit_byte (hws c hc)).2, mul_comm]

/-- The digits of `n`, as a number without a fraction. -/
def wholeNumber (n : Nat) : Decimal where
  whole := ascii (Nat.toDigits 10 n)
  fraction := none
  whole_ne h := Nat.toDigits_ne_nil (List.map_eq_nil_iff.mp h)
  whole_digits := isDigit_of_mem_ascii fun _ => DecimalText.isDigit_of_mem_toDigits
  fraction_digits := no_fraction

theorem digitsValue_wholeNumber (n : Nat) : digitsValue (wholeNumber n).whole = n :=
  (digitsValue_ascii fun _ => DecimalText.isDigit_of_mem_toDigits).trans
    Nat.ofDigitChars_ten_toDigits

/-- The text of whole digits `ws` and fraction digits `fs`. -/
def numberText (hws : ∀ c ∈ ws, c.isDigit = true) (hfs : ∀ c ∈ fs, c.isDigit = true) :
    NumberText where
  whole := ascii ws
  fraction := if fs = [] then none else some (ascii fs)
  whole_digits := isDigit_of_mem_ascii hws
  fraction_digits := by
    intro f hf
    obtain ⟨-, hsome⟩ := Option.ite_none_left_eq_some.mp hf
    cases hsome
    exact isDigit_of_mem_ascii hfs

theorem parseFloat_ascii (hws : ∀ c ∈ ws, c.isDigit = true) (hfs : ∀ c ∈ fs, c.isDigit = true)
    (htail : EndsNumber tail) :
    parseFloat (ascii (ws ++ DecimalText.point fs) ++ tail) =
      ((DecimalText.value ws fs : Rat), tail) := by
  have htext : (numberText hws hfs).text = ascii (ws ++ DecimalText.point fs) := by
    rw [ascii_append]
    cases fs with
    | nil => rfl
    | cons f fs => rfl
  have hvalue : (numberText hws hfs).value = (DecimalText.value ws fs : Rat) := by
    have hwhole : (digitsValue (ascii ws) : Rat) = Nat.ofDigitChars 10 ws 0 := by
      rw [digitsValue_ascii hws]
    rw [DecimalText.value_eq, ← hwhole]
    cases fs with
    | nil =>
      have hzero : ((Nat.ofDigitChars 10 [] 0 : Nat) : Rat) / 10 ^ 0 = 0 := by simp
      exact congrArg ((digitsValue (ascii ws) : Rat) + ·) hzero.symm
    | cons f fs =>
      rw [← digitsValue_ascii hfs, ← length_ascii (f :: fs)]
      rfl
  rw [← htext, NumberText.parseFloat_text _ htail, NumberText.floatOf_eq, hvalue]

theorem parseFloat_shortest (d n : Nat) (htail : EndsNumber tail) :
    parseFloat (ascii (DecimalText.shortest d n) ++ tail) = ((n : Rat) / 10 ^ d, tail) := by
  unfold DecimalText.shortest
  rw [parseFloat_ascii (fun c => DecimalText.isDigit_of_mem_toDigits)
    (fun c hc => DecimalText.isDigit_of_mem_lastDigits
      ((DecimalText.stripZeros_prefix _).subset hc)) htail, DecimalText.value_shortest]

end Digits

/-! ## The four floats -/

/-- The numbers that `%.8g` writes without an exponent: zero, and what rounds to
a number from `0.0001` up to, and not including, `100000000`. -/
def Plain (x : Rat) : Prop := x = 0 ∨ (10 ^ 8 - 1 / 2) / 10 ^ 12 ≤ x ∧ x < 10 ^ 8 - 1 / 2

instance (x : Rat) : Decidable (Plain x) := inferInstanceAs (Decidable (_ ∨ _))

theorem plain_iff {x : Rat} (hx : 0 ≤ x) :
    Plain x ↔ -4 ≤ (DecimalText.sci 7 x).2 ∧ (DecimalText.sci 7 x).2 ≤ 7 := by
  rcases hx.eq_or_lt with rfl | hpos
  · rw [DecimalText.sci_zero]
    exact iff_of_true (Or.inl rfl) ⟨by decide, by decide⟩
  · have hlow := DecimalText.le_sci_exponent_iff 7 hpos (-5)
    have hhigh := DecimalText.le_sci_exponent_iff 7 hpos 7
    have hnot : (DecimalText.sci 7 x).2 ≤ 7 ↔ ¬ 7 + 1 ≤ (DecimalText.sci 7 x).2 := by omega
    unfold Plain
    rw [or_iff_right hpos.ne', hnot, hhigh, show (-4 : Int) = -5 + 1 by rfl, hlow, not_le]
    norm_num

/-- The reader gets the rounded number exactly where the writer needs no exponent. -/
theorem parseFloat_formatFloat {x : Rat} (hx : 0 ≤ x) :
    (parseFloat (ascii (formatFloat x))).1 = DecimalText.roundSig 7 x ↔ Plain x := by
  have hvalue := DecimalText.sci_value 7 x
  have hplain := plain_iff hx
  have hpos : ¬ Plain x → 0 < x := fun h => lt_of_le_of_ne hx fun he => h (Or.inl he.symm)
  have hm : 0 < x → 10 ^ 7 ≤ (DecimalText.sci 7 x).1 := fun h => (DecimalText.sci_digits 7 h).1
  unfold formatFloat DecimalText.general
  rcases hsci : DecimalText.sci 7 x with ⟨m, e⟩
  rw [hsci] at hvalue hplain hm
  dsimp only at hvalue hplain hm ⊢
  split_ifs with he
  · have hdiv : (m : Rat) / 10 ^ (7 - e).toNat = m * 10 ^ (e - 7) := DecimalText.div_decimals he.2
    have hends : EndsNumber [] := by rintro b ⟨⟩
    have hread := parseFloat_shortest (7 - e).toNat m hends
    rw [List.append_nil] at hread
    rw [Nat.cast_ofNat, hread]
    exact iff_of_true (hdiv.trans hvalue) (hplain.mpr he)
  · have hnot : ¬ Plain x := fun h => he (hplain.mp h)
    have hm₀ : (m : Rat) ≠ 0 := by
      have := hm (hpos hnot)
      exact Nat.cast_ne_zero.mpr (by omega)
    have hends : EndsNumber (ascii (DecimalText.exponent e)) := by
      rintro b ⟨⟩
      decide
    rw [ascii_append, parseFloat_shortest 7 m hends]
    refine iff_of_false (fun hread => he ?_) hnot
    have hexp : (10 : Rat) ^ (e - 7) = 10 ^ (-7 : Int) := by
      refine mul_left_cancel₀ hm₀ ?_
      exact hvalue.trans hread.symm
    have hzero := zpow_right_injective₀ (by norm_num) (by norm_num) hexp
    omega

/-! ## The texts between the commas -/

/-- The characters of the six columns. -/
def NumberChar (c : Char) : Prop := c.isDigit = true ∨ c ∈ ['-', '+', '.', 'e']

instance (c : Char) : Decidable (NumberChar c) := inferInstanceAs (Decidable (_ ∨ _))

theorem numberByte_ascii {cs : List Char} (hcs : ∀ c ∈ cs, NumberChar c) :
    ∀ b ∈ ascii cs, NumberByte b := by
  intro b hb
  obtain ⟨c, hc, rfl⟩ := List.mem_map.mp hb
  rcases hcs c hc with hd | hsign
  · exact numberByte_of_isDigit (digit_byte hd).1
  · simp only [List.mem_cons, List.not_mem_nil, or_false] at hsign
    rcases hsign with rfl | rfl | rfl | rfl <;> exact ⟨by decide, by decide⟩

theorem numberChar_toDigits {n : Nat} {c : Char} (hc : c ∈ Nat.toDigits 10 n) : NumberChar c :=
  Or.inl (DecimalText.isDigit_of_mem_toDigits hc)

theorem numberChar_shortest {d n : Nat} {c : Char} (hc : c ∈ DecimalText.shortest d n) :
    NumberChar c := by
  rcases List.mem_append.mp hc with hc | hc
  · exact numberChar_toDigits hc
  · rcases DecimalText.mem_point hc with rfl | hc
    · exact Or.inr (by decide)
    · exact Or.inl (DecimalText.isDigit_of_mem_lastDigits
        ((DecimalText.stripZeros_prefix _).subset hc))

theorem numberChar_exponent {e : Int} {c : Char} (hc : c ∈ DecimalText.exponent e) :
    NumberChar c := by
  have hhead : ∀ c ∈ 'e' :: (if e < 0 then '-' else '+') ::
      (if e.natAbs < 10 then ['0'] else []), NumberChar c := by
    split_ifs <;> simp [NumberChar]
  rcases List.mem_append.mp hc with hc | hc
  · exact hhead c hc
  · exact numberChar_toDigits hc

theorem numberByte_formatFloat (x : Rat) : ∀ b ∈ ascii (formatFloat x), NumberByte b := by
  refine numberByte_ascii fun c hc => ?_
  unfold formatFloat DecimalText.general at hc
  dsimp only at hc
  split_ifs at hc
  · exact numberChar_shortest hc
  · rcases List.mem_append.mp hc with hc | hc
    · exact numberChar_shortest hc
    · exact numberChar_exponent hc

theorem numberByte_formatInt (n : Int) : ∀ b ∈ ascii (formatInt n), NumberByte b := by
  have hsign : ∀ c ∈ if n < 0 then ['-'] else [], NumberChar c := by
    split_ifs <;> simp [NumberChar]
  refine numberByte_ascii fun c hc => ?_
  rcases List.mem_append.mp hc with hc | hc
  · exact hsign c hc
  · exact numberChar_toDigits hc

/-! ## The two integers -/

/-- A reader that has the number modulo `M`, and nothing where a sign stops it. -/
theorem fst_formatInt {T : Type*} {M : Nat} {toNat : T → Nat}
    {parse : List UInt8 → T × List UInt8}
    (hdigits : ∀ d : Decimal, toNat (parse d.text).1 = digitsValue d.whole % M)
    (hsign : ∀ p, toNat (parse (Ascii.minus :: p)).1 = 0) (hM : 0 < M) (n : Int) :
    (toNat (parse (ascii (formatInt n))).1 : Int) = n ↔ 0 ≤ n ∧ n < M := by
  unfold formatInt
  split_ifs with hneg
  · have hzero : toNat (parse (ascii (['-'] ++ Nat.toDigits 10 n.natAbs))).1 = 0 := hsign _
    rw [hzero]
    exact iff_of_false (by omega) (by omega)
  · have hread := hdigits (wholeNumber n.natAbs)
    rw [digitsValue_wholeNumber] at hread
    have htext : ascii ([] ++ Nat.toDigits 10 n.natAbs) = (wholeNumber n.natAbs).text :=
      (List.append_nil _).symm
    rw [htext, hread]
    have hmod : n.natAbs % M = n.natAbs ↔ n.natAbs < M :=
      ⟨fun h => h ▸ Nat.mod_lt _ hM, Nat.mod_eq_of_lt⟩
    have habs : (n.natAbs : Int) = n := Int.natAbs_of_nonneg (not_lt.mp hneg)
    constructor
    · intro h
      have hlt := hmod.mp (by omega)
      omega
    · rintro ⟨-, h⟩
      rw [hmod.mpr (by omega), habs]

theorem parseU64_formatInt (n : Int) :
    ((parseU64 (ascii (formatInt n))).1.toNat : Int) = n ↔ 0 ≤ n ∧ n < (2 ^ 64 : Nat) :=
  fst_formatInt (fun d => by rw [fst_parseU64_text, UInt64.toNat_ofNat']) (fun _ => rfl)
    (by decide) n

theorem parseU32_formatInt (n : Int) :
    ((parseU32 (ascii (formatInt n))).1.toNat : Int) = n ↔ 0 ≤ n ∧ n < (2 ^ 32 : Nat) :=
  fst_formatInt (fun d => by rw [fst_parseU32_text, UInt32.toNat_ofNat']) (fun _ => rfl)
    (by decide) n

/-! ## A row -/

/-- The reader has the two integers, and the four floats to eight digits. -/
def QuoteRow.ReadBack (r : QuoteRow) (f : Fields Rat) : Prop :=
  (f.tsNs.toNat : Int) = r.timestampNs ∧ (f.instrId.toNat : Int) = r.instrumentId ∧
    f.bidPrice = DecimalText.roundSig 7 r.bidPrice ∧ f.bidQty = DecimalText.roundSig 7 r.bidQty ∧
      f.askPrice = DecimalText.roundSig 7 r.askPrice ∧ f.askQty = DecimalText.roundSig 7 r.askQty

instance (r : QuoteRow) (f : Fields Rat) : Decidable (r.ReadBack f) :=
  inferInstanceAs (Decidable (_ ∧ _))

theorem QuoteRow.line_append (r : QuoteRow) (rest : List UInt8) :
    r.line ++ rest = ascii (formatInt r.timestampNs) ++ Ascii.comma ::
      (ascii (formatInt r.instrumentId) ++ Ascii.comma ::
        (ascii (formatFloat r.bidPrice) ++ Ascii.comma ::
          (ascii (formatFloat r.bidQty) ++ Ascii.comma ::
            (ascii (formatFloat r.askPrice) ++ Ascii.comma ::
              (ascii (formatFloat r.askQty) ++ Ascii.newline :: rest))))) := by
  simp only [QuoteRow.line, List.append_assoc, List.cons_append, List.nil_append]

theorem parseFields_line (r : QuoteRow) (rest : List UInt8) :
    parseFields (K := Rat) (r.line ++ rest) =
      (⟨(parseU64 (ascii (formatInt r.timestampNs))).1,
        (parseU32 (ascii (formatInt r.instrumentId))).1,
        (parseFloat (ascii (formatFloat r.bidPrice))).1,
        (parseFloat (ascii (formatFloat r.bidQty))).1,
        (parseFloat (ascii (formatFloat r.askPrice))).1,
        (parseFloat (ascii (formatFloat r.askQty))).1⟩,
        (parseFloat (K := Rat) (ascii (formatFloat r.askQty))).2 ++ Ascii.newline :: rest) := by
  rw [r.line_append]
  exact parseFields_bodies (numberByte_formatInt _) (numberByte_formatInt _)
    (numberByte_formatFloat _) (numberByte_formatFloat _) (numberByte_formatFloat _) _
    (stops_newline rest)

theorem skipLine_parseFields_line (r : QuoteRow) (rest : List UInt8) :
    skipLine (parseFields (K := Rat) (r.line ++ rest)).2 = rest := by
  rw [parseFields_line]
  refine skipLine_append (fun hmem => ?_) rest
  have hsuffix := numberReader_parseFloat (K := Rat) |>.suffix (ascii (formatFloat r.askQty))
  exact (numberByte_formatFloat r.askQty _ (hsuffix.subset hmem)).2 rfl

/-- Whatever follows it in the file, a row is read back exactly if its integers
fit and none of its floats is written with an exponent; and the next row starts
behind it in any case. -/
theorem row_read_back_iff (r : QuoteRow) (rest : List UInt8) :
    (r.ReadBack (parseFields (r.line ++ rest)).1 ↔
        (0 ≤ r.timestampNs ∧ r.timestampNs < 2 ^ 64) ∧
          (0 ≤ r.instrumentId ∧ r.instrumentId < 2 ^ 32) ∧
            Plain r.bidPrice ∧ Plain r.bidQty ∧ Plain r.askPrice ∧ Plain r.askQty) ∧
      skipLine (parseFields (K := Rat) (r.line ++ rest)).2 = rest := by
  obtain ⟨hbid, hbidQty, hask, haskQty⟩ := r.nonneg
  refine ⟨?_, skipLine_parseFields_line r rest⟩
  rw [parseFields_line]
  unfold QuoteRow.ReadBack
  dsimp only
  rw [parseU64_formatInt, parseU32_formatInt, parseFloat_formatFloat hbid,
    parseFloat_formatFloat hbidQty, parseFloat_formatFloat hask, parseFloat_formatFloat haskQty]
  norm_num

/-- A quantity of 150 million is written `1.5e+08` and read as one and a half. -/
theorem exponent_not_read :
    let r : QuoteRow := ⟨1700000000000000000, 0, 100, 150000000, 101, 3, by decide⟩
    ¬ r.ReadBack (parseFields (r.line ++ [])).1 := by
  decide +kernel

theorem not_isHeader_formatInt (n : Int) (p : List UInt8) :
    ¬ isHeader (ascii (formatInt n) ++ p) = true := by
  unfold formatInt
  split_ifs
  · exact Bool.false_ne_true
  · rw [List.nil_append]
    cases hd : Nat.toDigits 10 n.natAbs with
    | nil => exact absurd hd Nat.toDigits_ne_nil
    | cons c cs =>
      have hc : c.isDigit = true := by
        refine DecimalText.isDigit_of_mem_toDigits (n := n.natAbs) ?_
        rw [hd]
        exact List.mem_cons_self
      exact not_isHeader_of_isDigit (digit_byte hc).1 _

/-- The row loop takes the file line by line as it was written. -/
theorem rows_atomicWriteCsv (rs : List QuoteRow) :
    (rows (K := Rat) (atomicWriteCsv rs)).map Prod.fst = rs.map QuoteRow.line := by
  induction rs with
  | nil => rfl
  | cons r rs ih =>
    have hrow : csvRow (K := Rat) (r.line ++ atomicWriteCsv rs) =
        ((parseFields (K := Rat) (r.line ++ atomicWriteCsv rs)).1.outcome, atomicWriteCsv rs) := by
      have hheader := not_isHeader_formatInt r.timestampNs
      rw [csvRow_row (by rw [r.line_append]; exact hheader _), skipLine_parseFields_line]
    have hne : r.line ≠ [] := by
      unfold QuoteRow.line
      simp
    show (RowScan.scan csvRow (r.line ++ atomicWriteCsv rs)).map Prod.fst = _
    rw [RowScan.scan_append consumes_csvRow hne hrow]
    exact congrArg _ ih

end Csv
end HoloMarket
