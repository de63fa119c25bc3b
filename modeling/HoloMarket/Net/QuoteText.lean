import HoloMarket.Net.BinanceFeed
import HoloMarket.Net.NumberText

/-!
# QuoteText: one quote in the live feed and in the replay

`parse_price` does with a decimal what `parse_float` does, in any arithmetic, and both
return the number it denotes in exact arithmetic.  A quote therefore becomes the same price
and quantity whether it comes in a depth message or in a row of a file.
-/

namespace HoloMarket
namespace Feed

open Csv

/-! ## The price loop -/

theorem isDigitChar_eq (c : UInt8) : isDigitChar c = isDigit c := by
  unfold isDigitChar isDigit
  rw [Bool.eq_iff_iff, Bool.and_eq_true, decide_eq_true_iff, decide_eq_true_iff,
    decide_eq_true_iff, UInt8.le_iff_toNat_le, UInt8.le_iff_toNat_le, UInt8.lt_iff_toNat_lt,
    UInt8.toNat_sub]
  have hlt := c.toNat_lt
  show 48 ≤ c.toNat ∧ c.toNat ≤ 57 ↔ (2 ^ 8 - 48 + c.toNat) % 2 ^ 8 < 10
  omega

section Loop

variable {K : Type*} [NatCast K] [Add K] [Mul K] [OfScientific K] {ds tail : List UInt8}

theorem priceLoop_whole (hds : ∀ b ∈ ds, isDigit b) (out frac : K) (sv : List UInt8) :
    priceLoop ⟨out, false, frac⟩ (ds ++ sv) =
      priceLoop ⟨ds.foldl pushWhole out, false, frac⟩ sv := by
  induction ds generalizing out with
  | nil => rfl
  | cons b ds ih =>
    rw [List.forall_mem_cons] at hds
    have hround : (PriceScan.mk out false frac).next b = some ⟨pushWhole out b, false, frac⟩ := by
      unfold PriceScan.next
      rw [isDigitChar_eq, if_pos hds.1]
      rfl
    rw [List.cons_append, priceLoop, hround]
    exact ih hds.2 (pushWhole out b)

theorem priceLoop_fraction (hds : ∀ b ∈ ds, isDigit b) (s : K × K) (sv : List UInt8) :
    priceLoop ⟨s.1, true, s.2⟩ (ds ++ sv) =
      priceLoop ⟨(ds.foldl pushFraction s).1, true, (ds.foldl pushFraction s).2⟩ sv := by
  induction ds generalizing s with
  | nil => rfl
  | cons b ds ih =>
    rw [List.forall_mem_cons] at hds
    have hround : (PriceScan.mk s.1 true s.2).next b =
        some ⟨(pushFraction s b).1, true, (pushFraction s b).2⟩ := by
      unfold PriceScan.next
      rw [isDigitChar_eq, if_pos hds.1]
      rfl
    rw [List.cons_append, priceLoop, hround]
    exact ih hds.2 (pushFraction s b)

theorem priceLoop_ends (htail : EndsNumber tail) (s : PriceScan K) : priceLoop s tail = s := by
  cases tail with
  | nil => rfl
  | cons b tail =>
    have hround : s.next b = none := by
      unfold PriceScan.next
      rw [isDigitChar_eq, (htail b rfl).1, if_neg Bool.false_ne_true, if_neg (htail b rfl).2]
    rw [priceLoop, hround]

/-- `parse_price` reads a decimal as `parse_float` does. -/
theorem parsePrice_text (t : NumberText) (htail : EndsNumber tail) :
    parsePrice (K := K) (t.text ++ tail) = floatOf t.whole t.fraction := by
  obtain ⟨whole, fraction, hwhole, hfraction⟩ := t
  unfold parsePrice NumberText.text floatOf wholeOf
  dsimp only
  rw [List.append_assoc, priceLoop_whole hwhole]
  cases fraction with
  | none => exact congrArg PriceScan.result (priceLoop_ends htail _)
  | some f =>
    have hloop := priceLoop_fraction (hfraction f rfl)
      ((whole.foldl pushWhole ((0 : Nat) : K), 0.1) : K × K) tail
    rw [priceLoop_ends htail] at hloop
    exact congrArg PriceScan.result hloop

end Loop

/-! ## Quotes -/

/-- The text of a price or a quantity: a number, and what else its field holds. -/
structure QuoteText where
  number : NumberText
  after : List UInt8
  after_ends : EndsNumber after
  after_bytes : ∀ b ∈ after, NumberByte b

/-- A price and a quantity. -/
structure Quote where
  price : QuoteText
  quantity : QuoteText

/-- A row of the replay: the texts of its timestamp and its instrument, and two quotes. -/
structure QuoteLine where
  ts : List UInt8
  instrument : List UInt8
  bid : Quote
  ask : Quote
  ts_bytes : ∀ b ∈ ts, NumberByte b
  instrument_bytes : ∀ b ∈ instrument, NumberByte b

def QuoteText.text (q : QuoteText) : List UInt8 := q.number.text ++ q.after

def QuoteLine.text (l : QuoteLine) : List UInt8 :=
  l.ts ++ Ascii.comma :: (l.instrument ++ Ascii.comma :: (l.bid.price.text ++ Ascii.comma ::
    (l.bid.quantity.text ++ Ascii.comma :: (l.ask.price.text ++ Ascii.comma ::
      l.ask.quantity.text))))

/-- A level of a depth message. -/
def Quote.level (q : Quote) : JsonValue :=
  .array [.string q.price.text, .string q.quantity.text]

def depthMessage (stream : List UInt8) (bids asks : List Quote) : JsonValue :=
  .object [("stream", .string stream), ("data", .object
    [("b", .array (bids.map Quote.level)), ("a", .array (asks.map Quote.level))])]

theorem QuoteText.numberByte (q : QuoteText) : ∀ b ∈ q.text, NumberByte b := by
  intro b hb
  rcases List.mem_append.mp hb with hb | hb
  · exact q.number.numberByte b hb
  · exact q.after_bytes b hb

section Updates

variable {K : Type*} [NatCast K] [Add K] [Mul K] [OfScientific K]

/-- What both parsers return for a text. -/
def QuoteText.read (q : QuoteText) : K := floatOf q.number.whole q.number.fraction

theorem QuoteText.parsePrice_eq (q : QuoteText) : parsePrice (K := K) q.text = q.read :=
  parsePrice_text q.number q.after_ends

theorem QuoteText.parseFloat_eq (q : QuoteText) : (parseFloat (K := K) q.text).1 = q.read := by
  unfold QuoteText.text
  rw [NumberText.parseFloat_text q.number q.after_ends]
  rfl

/-- The update that the feed makes of a level. -/
def Quote.update (ts : UInt64) (instrId : UInt32) (side : BookSide) (lvl : Nat) (q : Quote) :
    LobUpdate K where
  timestampNs := ts
  price := q.price.read
  quantity := q.quantity.read
  instrumentId := instrId
  depthLevel := lvl.toUInt8
  side := side

theorem levelUpdates_quotes (ts : UInt64) (instrId : UInt32) (side : BookSide) (lvl : Nat)
    (qs : List Quote) : levelUpdates (K := K) ts instrId side lvl (qs.map Quote.level) =
      ((qs.zipIdx lvl).map fun q => q.1.update ts instrId side q.2, false) := by
  induction qs generalizing lvl with
  | nil => rfl
  | cons q qs ih =>
    have htexts : levelTexts q.level = .ok (some (q.price.text, q.quantity.text)) := rfl
    rw [List.map_cons, levelUpdates, htexts, List.zipIdx_cons, List.map_cons]
    dsimp only
    rw [ih, q.price.parsePrice_eq, q.quantity.parsePrice_eq]
    rfl

theorem pushLevels_quotes (ts : UInt64) (instrId : UInt32) (side : BookSide) (qs : List Quote) :
    pushLevels (K := K) ts instrId side (.array (qs.map Quote.level)) =
      (((qs.take kMaxDepth).zipIdx 0).map fun q => q.1.update ts instrId side q.2, false) := by
  show levelUpdates ts instrId side 0 ((qs.map Quote.level).take kMaxDepth) = _
  rw [← List.map_take]
  exact levelUpdates_quotes ts instrId side 0 (qs.take kMaxDepth)

/-- A depth message offers an update for each of its first levels, bids before asks. -/
theorem offered_depthMessage {stream : List UInt8}
    (hstream : (instrumentIdFromStream stream).toNat < kFeedNInstruments) (bids asks : List Quote)
    (ts : UInt64) : offered (K := K) (.ok (depthMessage stream bids asks)) ts =
      (((bids.take kMaxDepth).zipIdx 0).map fun q =>
        q.1.update ts (instrumentIdFromStream stream) .bid q.2) ++
      ((asks.take kMaxDepth).zipIdx 0).map fun q =>
        q.1.update ts (instrumentIdFromStream stream) .ask q.2 := by
  have hread : readDepth (.ok (depthMessage stream bids asks)) = .ok (some
      ⟨instrumentIdFromStream stream, .array (bids.map Quote.level),
        .array (asks.map Quote.level)⟩) :=
    if_neg (Nat.not_le.mpr hstream)
  unfold offered
  rw [hread]
  unfold Depth.offers
  dsimp only
  rw [pushLevels_quotes, pushLevels_quotes]
  rfl

theorem filter_best (ts : UInt64) (instrId : UInt32) (side : BookSide) (q : Quote)
    (qs : List Quote) :
    ((((q :: qs).take kMaxDepth).zipIdx 0).map fun q =>
      q.1.update (K := K) ts instrId side q.2).filter (fun u => decide (u.depthLevel = 0)) =
        [q.update ts instrId side 0] := by
  have hrest : ((((qs.take 15).zipIdx 1).map fun q =>
      q.1.update (K := K) ts instrId side q.2).filter fun u => decide (u.depthLevel = 0)) = [] := by
    rw [List.filter_eq_nil_iff]
    intro u hu hzero
    obtain ⟨⟨q', i⟩, hmem, rfl⟩ := List.mem_map.mp hu
    obtain ⟨hlo, hhi, -⟩ := List.mem_zipIdx hmem
    have hlen : (qs.take 15).length ≤ 15 := List.length_take_le _ _
    have hlvl : i.toUInt8 = 0 := of_decide_eq_true hzero
    have hnat := congrArg UInt8.toNat hlvl
    have hsmall : i < UInt8.size := Nat.lt_of_lt_of_le (by omega : i < 16) (by decide)
    rw [Nat.toUInt8_eq, UInt8.toNat_ofNat_of_lt' hsmall, UInt8.toNat_zero] at hnat
    omega
  show List.filter _ (q.update ts instrId side 0 ::
    ((qs.take 15).zipIdx 1).map fun q => q.1.update (K := K) ts instrId side q.2) = _
  rw [List.filter_cons, hrest]
  rfl

variable [BEq K]

/-- A row whose prices are not refused pushes its two quotes. -/
theorem csvRow_quoteLine (l : QuoteLine) {rest : List UInt8} (hrest : Stops rest)
    {bid ask : LobUpdate K} (hrow : (csvRow (K := K) (l.text ++ rest)).1 = .quote bid ask) :
    (bid.price = l.bid.price.read ∧ bid.quantity = l.bid.quantity.read) ∧
      ask.price = l.ask.price.read ∧ ask.quantity = l.ask.quantity.read := by
  have htext : l.text ++ rest = l.ts ++ Ascii.comma :: (l.instrument ++ Ascii.comma ::
      (l.bid.price.text ++ Ascii.comma :: (l.bid.quantity.text ++ Ascii.comma ::
        (l.ask.price.text ++ Ascii.comma :: (l.ask.quantity.text ++ rest))))) := by
    simp only [QuoteLine.text, List.append_assoc, List.cons_append]
  have hfields : (parseFields (K := K) (l.text ++ rest)).1 =
      ⟨(parseU64 l.ts).1, (parseU32 l.instrument).1, l.bid.price.read, l.bid.quantity.read,
        l.ask.price.read, l.ask.quantity.read⟩ := by
    rw [htext, parseFields_bodies l.ts_bytes l.instrument_bytes l.bid.price.numberByte
      l.bid.quantity.numberByte l.ask.price.numberByte _ hrest, QuoteText.parseFloat_eq,
      QuoteText.parseFloat_eq, QuoteText.parseFloat_eq, QuoteText.parseFloat_eq]
  by_cases hheader : isHeader (l.text ++ rest) = true
  · rw [csvRow_header hheader] at hrow
    cases hrow
  · rw [csvRow_row hheader] at hrow
    replace hrow : (parseFields (K := K) (l.text ++ rest)).1.outcome = .quote bid ask := hrow
    rw [hfields] at hrow
    unfold Fields.outcome at hrow
    split_ifs at hrow
    cases hrow
    exact ⟨⟨rfl, rfl⟩, rfl, rfl⟩

/-- Both parsers read a decimal exactly, and `parse_float` stops behind it.  The updates that
a row pushes and those that the feed offers for the best level of the same quotes agree in
price and quantity, in any arithmetic. -/
theorem priceParsers_agree :
    (∀ (t : NumberText) (tail : List UInt8), EndsNumber tail →
      parseFloat (t.text ++ tail) = (t.value, tail) ∧ parsePrice (t.text ++ tail) = t.value) ∧
    ∀ (l : QuoteLine) (rest : List UInt8), Stops rest → ∀ bid ask : LobUpdate K,
      (csvRow (l.text ++ rest)).1 = .quote bid ask →
      ∀ (stream : List UInt8) (bids asks : List Quote) (ts : UInt64),
        (instrumentIdFromStream stream).toNat < kFeedNInstruments →
        ((offered (.ok (depthMessage stream (l.bid :: bids) (l.ask :: asks))) ts).filter
          fun u => decide (u.depthLevel = 0)).map
            (fun u : LobUpdate K => (u.side, u.price, u.quantity)) =
          [(.bid, bid.price, bid.quantity), (.ask, ask.price, ask.quantity)] := by
  refine ⟨fun t tail htail => ?_, fun l rest hrest bid ask hrow stream bids asks ts hstream => ?_⟩
  · have hexact := t.floatOf_eq
    rw [NumberText.parseFloat_text t htail, parsePrice_text t htail, hexact]
    exact ⟨rfl, rfl⟩
  · obtain ⟨⟨hbp, hbq⟩, hap, haq⟩ := csvRow_quoteLine l hrest hrow
    rw [offered_depthMessage hstream, List.filter_append, filter_best, filter_best, hbp, hbq, hap,
      haq]
    rfl

end Updates

/-- The number `12.5`, with nothing behind it. -/
def twelveAndAHalf : QuoteText where
  number :=
    { whole := [49, 50]
      fraction := some [53]
      whole_digits := List.all_eq_true.mp rfl
      fraction_digits := by
        rintro f ⟨⟩
        exact List.all_eq_true.mp rfl }
  after := []
  after_ends := fun _ hb => nomatch hb
  after_bytes := fun _ hb => nomatch hb

/-- The row `7,0,12.5,12.5,12.5,12.5`. -/
def sampleLine : QuoteLine where
  ts := [55]
  instrument := [48]
  bid := ⟨twelveAndAHalf, twelveAndAHalf⟩
  ask := ⟨twelveAndAHalf, twelveAndAHalf⟩
  ts_bytes := List.forall_mem_singleton.mpr ⟨by decide, by decide⟩
  instrument_bytes := List.forall_mem_singleton.mpr ⟨by decide, by decide⟩

theorem priceParsers_agree_sample :
    parseFloat (twelveAndAHalf.number.text ++ [Ascii.comma]) =
      (twelveAndAHalf.number.value, [Ascii.comma]) ∧
    ((offered (.ok (depthMessage (bytes "btcusdt@depth5@100ms") [sampleLine.bid] [sampleLine.ask]))
      9).filter fun u => decide (u.depthLevel = 0)).map
        (fun u : LobUpdate ℚ => (u.side, u.price, u.quantity)) =
      [(.bid, 25 / 2, 25 / 2), (.ask, 25 / 2, 25 / 2)] := by
  have hends : EndsNumber [Ascii.comma] := by
    rintro b ⟨⟩
    exact ⟨by decide, by decide⟩
  have hrow : (csvRow (K := ℚ) (sampleLine.text ++ [Ascii.newline])).1 = .quote
      { timestampNs := 7, instrumentId := 0, depthLevel := 0, side := .bid
        price := 25 / 2, quantity := 25 / 2 }
      { timestampNs := 7, instrumentId := 0, depthLevel := 0, side := .ask
        price := 25 / 2, quantity := 25 / 2 } := by
    decide +kernel
  exact ⟨((priceParsers_agree (K := ℚ)).1 twelveAndAHalf.number [Ascii.comma] hends).1,
    (priceParsers_agree (K := ℚ)).2 sampleLine [Ascii.newline] (stops_newline []) _ _ hrow
      (bytes "btcusdt@depth5@100ms") [] [] 9 (by decide)⟩

end Feed
end HoloMarket
