import HoloMarket.App.RiskCheck
import HoloMarket.Infra.AggTrades
import HoloMarket.Lib.UnstableSort
import HoloMarket.Net.RowIsolation

/-!
# The merged file

`main` of `download_binance_aggtrades_v2.py` concatenates the frames of the
symbols and sorts them by timestamp, with a sort that need not be stable; the
backtest applies the rows to the book in the order of the file.
-/

namespace HoloMarket

open AggTrades UnstableSort

/-- A row of `master`. -/
structure MasterRow (K : Type) where
  instrumentId : Nat
  quote : QuoteRow K
deriving DecidableEq, Repr

namespace MasterRow

variable {K : Type}

def timestampNs (r : MasterRow K) : Int := r.quote.timestampNs

def ofInstrument (i : Nat) (r : MasterRow K) : Bool := r.instrumentId == i

end MasterRow

variable {K : Type}

/-- The frames of the symbols, one a symbol. -/
structure SymbolFrames (K : Type) where
  frames : List (Nat × List (QuoteRow K))
  distinct : (frames.map Prod.fst).Nodup
  /-- The numbers of `INSTRUMENT_MAP`. -/
  known : ∀ frame ∈ frames, frame.1 < kFeedNInstruments

/-- The rows of one symbol, as they stand in `master`. -/
def frameRows (frame : Nat × List (QuoteRow K)) : List (MasterRow K) :=
  frame.2.map (MasterRow.mk frame.1)

/-- `pd.concat(frames)`. -/
def master (frames : List (Nat × List (QuoteRow K))) : List (MasterRow K) :=
  frames.flatMap frameRows

/-- A result of `sort_values("timestamp_ns")`. -/
def IsFile (s : SymbolFrames K) (file : List (MasterRow K)) : Prop :=
  Result MasterRow.timestampNs (master s.frames) file

/-- The rows of each symbol are in the order of its quotes. -/
def KeepsOrder (s : SymbolFrames K) (file : List (MasterRow K)) : Prop :=
  ∀ frame ∈ s.frames, file.filter (MasterRow.ofInstrument frame.1) = frameRows frame

/-! ## The book of the backtest -/

section Book

variable [NatCast K] [BEq K] (reread : Option K → K)

/-- The fields that the replay reads; `reread` is a number as `to_csv` writes it
and the replay reads it back. -/
def MasterRow.fields (r : MasterRow K) : Csv.Fields K where
  tsNs := UInt64.ofInt r.timestampNs
  instrId := UInt32.ofNat r.instrumentId
  bidPrice := reread r.quote.bidPrice
  bidQty := reread r.quote.bidQty
  askPrice := reread r.quote.askPrice
  askQty := reread r.quote.askQty

/-- The book of the backtest after some rows of the file. -/
def bookAfter (rows : List (MasterRow K)) : LobSoA K :=
  (rows.flatMap fun r => (r.fields reread).outcome.updates).foldl LobSoA.apply
    (LobSoA.init kFeedNInstruments 1)

/-- Neither price of the row reads as zero; the replay refuses a row with such a price. -/
def MasterRow.priced (r : MasterRow K) : Bool :=
  !(reread r.quote.bidPrice == ((0 : Nat) : K) || reread r.quote.askPrice == ((0 : Nat) : K))

/-- The book shows the quote of the row for its instrument. -/
structure LobSoA.Shows (lob : LobSoA K) (r : MasterRow K) : Prop where
  bidPrice : lob.price ⟨r.instrumentId, 0, .bid⟩ = some (reread r.quote.bidPrice)
  bidQty : lob.quantity ⟨r.instrumentId, 0, .bid⟩ = some (reread r.quote.bidQty)
  askPrice : lob.price ⟨r.instrumentId, 0, .ask⟩ = some (reread r.quote.askPrice)
  askQty : lob.quantity ⟨r.instrumentId, 0, .ask⟩ = some (reread r.quote.askQty)

def MasterRow.upTo (time : Int) (r : MasterRow K) : Bool := decide (r.timestampNs ≤ time)

/-- Once the rows up to a time are replayed, the book shows for each instrument
the last quote of its symbol up to that time. -/
def BookFollows (s : SymbolFrames K) (file : List (MasterRow K)) : Prop :=
  ∀ frame ∈ s.frames, ∀ (time : Int) (r : MasterRow K),
    ((frameRows frame).filter fun r => r.upTo time && r.priced reread).getLast? = some r →
      LobSoA.Shows reread (bookAfter reread (file.takeWhile (MasterRow.upTo time))) r

end Book

/-! ## The rows of one instrument -/

theorem filter_master {frames : List (Nat × List (QuoteRow K))}
    (hdistinct : (frames.map Prod.fst).Nodup) {frame : Nat × List (QuoteRow K)}
    (hframe : frame ∈ frames) :
    (master frames).filter (MasterRow.ofInstrument frame.1) = frameRows frame := by
  induction frames with
  | nil => cases hframe
  | cons f frames ih =>
    rw [List.map_cons, List.nodup_cons] at hdistinct
    have hown : ∀ g : Nat × List (QuoteRow K),
        (frameRows g).filter (MasterRow.ofInstrument g.1) = frameRows g := by
      intro g
      refine List.filter_eq_self.mpr fun r hr => ?_
      obtain ⟨q, -, rfl⟩ := List.mem_map.mp hr
      exact beq_self_eq_true g.1
    have hother : ∀ {g g' : Nat × List (QuoteRow K)}, g'.1 ≠ g.1 →
        (frameRows g').filter (MasterRow.ofInstrument g.1) = [] := by
      intro g g' hne
      refine List.filter_eq_nil_iff.mpr fun r hr => ?_
      obtain ⟨q, -, rfl⟩ := List.mem_map.mp hr
      exact fun h => hne (beq_iff_eq.mp h)
    unfold master at ih ⊢
    rw [List.flatMap_cons, List.filter_append]
    rcases List.mem_cons.mp hframe with rfl | hmem
    · rw [hown, List.filter_flatMap, List.flatMap_eq_nil_iff.mpr, List.append_nil]
      intro g hg
      refine hother fun he => hdistinct.1 ?_
      rw [← he]
      exact List.mem_map_of_mem hg
    · have hne : f.1 ≠ frame.1 := by
        intro he
        refine hdistinct.1 ?_
        rw [he]
        exact List.mem_map_of_mem hmem
      rw [hother hne, List.nil_append]
      exact ih hdistinct.2 hmem

/-- The order of a symbol survives every sort exactly when its stamps are in
order and its rows of one stamp are the same. -/
theorem keepsOrder_iff (s : SymbolFrames K) :
    (∀ file, IsFile s file → KeepsOrder s file) ↔
      ∀ frame ∈ s.frames, Settled MasterRow.timestampNs (frameRows frame) := by
  constructor
  · intro h frame hframe
    rw [← filter_master s.distinct hframe, ← filter_eq_iff_settled]
    intro file hfile
    rw [h file hfile frame hframe, filter_master s.distinct hframe]
  · intro h file hfile frame hframe
    have hsettled := h frame hframe
    rw [← filter_master s.distinct hframe, ← filter_eq_iff_settled] at hsettled
    rw [hsettled file hfile, filter_master s.distinct hframe]

theorem takeWhile_upTo {file : List (MasterRow K)}
    (hsorted : file.Pairwise fun a b => a.timestampNs ≤ b.timestampNs) (time : Int) :
    file.takeWhile (MasterRow.upTo time) = file.filter (MasterRow.upTo time) := by
  induction file with
  | nil => rfl
  | cons x file ih =>
    rw [List.pairwise_cons] at hsorted
    by_cases hx : x.upTo time = true
    · rw [List.takeWhile_cons_of_pos hx, List.filter_cons_of_pos hx, ih hsorted.2]
    · rw [List.takeWhile_cons_of_neg hx, List.filter_cons_of_neg hx]
      refine (List.filter_eq_nil_iff.mpr fun y hy => ?_).symm
      have hle := hsorted.1 y hy
      simp only [MasterRow.upTo, decide_eq_true_eq] at hx ⊢
      omega

/-! ## The book of one instrument -/

section Book

variable [NatCast K] [BEq K] {reread : Option K → K} {lob : LobSoA K}

/-- The update of one side of the quote. -/
def MasterRow.sideUpdate (reread : Option K → K) (r : MasterRow K) (side : BookSide) :
    LobUpdate K where
  timestampNs := UInt64.ofInt r.timestampNs
  instrumentId := UInt32.ofNat r.instrumentId
  depthLevel := 0
  side := side
  price := match side with
    | .bid => reread r.quote.bidPrice
    | .ask => reread r.quote.askPrice
  quantity := match side with
    | .bid => reread r.quote.bidQty
    | .ask => reread r.quote.askQty

omit [NatCast K] [BEq K] in
theorem toNat_instrumentId {r : MasterRow K} (hid : r.instrumentId < kFeedNInstruments) :
    (UInt32.ofNat r.instrumentId).toNat = r.instrumentId := by
  rw [UInt32.toNat_ofNat']
  exact Nat.mod_eq_of_lt (hid.trans (by decide))

omit [NatCast K] [BEq K] in
theorem slot_sideUpdate {r : MasterRow K} (hid : r.instrumentId < kFeedNInstruments)
    (side : BookSide) : (r.sideUpdate reread side).slot = ⟨r.instrumentId, 0, side⟩ := by
  show Slot.mk (UInt32.ofNat r.instrumentId).toNat 0 side = _
  rw [toNat_instrumentId hid]

/-- A priced row is an update of each side, and another row none. -/
theorem updates_fields {r : MasterRow K} (hid : r.instrumentId < kFeedNInstruments) :
    (r.fields reread).outcome.updates =
      if r.priced reread then [r.sideUpdate reread .bid, r.sideUpdate reread .ask] else [] := by
  have hlt : decide (kMaxInstruments ≤ (r.fields reread).instrId.toNat) = false := by
    rw [decide_eq_false_iff_not, not_le]
    show (UInt32.ofNat r.instrumentId).toNat < kMaxInstruments
    rw [toNat_instrumentId hid]
    exact hid.trans (by decide)
  unfold Csv.Fields.outcome MasterRow.priced
  rw [hlt, Bool.or_false]
  show Csv.Outcome.updates (if (reread r.quote.bidPrice == ((0 : Nat) : K) ||
    reread r.quote.askPrice == ((0 : Nat) : K)) = true then _ else _) = _
  cases reread r.quote.bidPrice == ((0 : Nat) : K) || reread r.quote.askPrice == ((0 : Nat) : K)
  · rfl
  · rfl

theorem LobSoA.Sized.shows_apply (hw : lob.Sized) (hn : lob.nInstruments = kFeedNInstruments)
    (hd : lob.depth = 1) {r : MasterRow K} (hid : r.instrumentId < kFeedNInstruments)
    (hpriced : r.priced reread = true) :
    ((r.fields reread).outcome.updates.foldl LobSoA.apply lob).Shows reread r := by
  rw [updates_fields hid, if_pos hpriced, List.foldl_cons, List.foldl_cons, List.foldl_nil]
  have hrange : ∀ side, lob.inRange (r.sideUpdate reread side) := by
    intro side
    refine ⟨?_, ?_⟩
    · show (UInt32.ofNat r.instrumentId).toNat < lob.nInstruments
      rw [toNat_instrumentId hid, hn]
      exact hid
    · rw [hd]
      exact Nat.zero_lt_one
  have hrange' : (lob.apply (r.sideUpdate reread .bid)).inRange (r.sideUpdate reread .ask) :=
    (LobSoA.inRange_congr LobSoA.apply_dims.1 LobSoA.apply_dims.2).mpr (hrange .ask)
  have hw' := hw.apply (r.sideUpdate reread .bid)
  have hne : (⟨r.instrumentId, 0, .bid⟩ : Slot) ≠ ⟨r.instrumentId, 0, .ask⟩ := by simp
  constructor
  · rw [hw'.price_apply hrange', hw.price_apply (hrange .bid), slot_sideUpdate hid,
      slot_sideUpdate hid, Function.update_of_ne hne, Function.update_self]
    rfl
  · rw [hw'.quantity_apply hrange', hw.quantity_apply (hrange .bid), slot_sideUpdate hid,
      slot_sideUpdate hid, Function.update_of_ne hne, Function.update_self]
    rfl
  · rw [hw'.price_apply hrange', slot_sideUpdate hid, Function.update_self]
    rfl
  · rw [hw'.quantity_apply hrange', slot_sideUpdate hid, Function.update_self]
    rfl

omit [NatCast K] [BEq K] in
/-- An update of another instrument leaves what the book shows. -/
theorem LobSoA.Sized.shows_other (hw : lob.Sized) {r : MasterRow K} (h : lob.Shows reread r)
    {u : LobUpdate K} (hu : u.slot.instrument ≠ r.instrumentId) :
    (lob.apply u).Shows reread r := by
  have hslot : ∀ side, (lob.apply u).price ⟨r.instrumentId, 0, side⟩ =
        lob.price ⟨r.instrumentId, 0, side⟩ ∧
      (lob.apply u).quantity ⟨r.instrumentId, 0, side⟩ =
        lob.quantity ⟨r.instrumentId, 0, side⟩ := by
    intro side
    have hne : lob.inRange u → u.slot ≠ ⟨r.instrumentId, 0, side⟩ := by
      intro _ he
      exact hu (congrArg Slot.instrument he)
    exact ⟨(hw.apply_other hne).1, (hw.apply_other hne).2.1⟩
  constructor
  · rw [(hslot .bid).1, h.bidPrice]
  · rw [(hslot .bid).2, h.bidQty]
  · rw [(hslot .ask).1, h.askPrice]
  · rw [(hslot .ask).2, h.askQty]

/-- A row that is refused or of another instrument leaves what the book shows. -/
theorem LobSoA.Sized.shows_row (hw : lob.Sized) {r x : MasterRow K}
    (hid : x.instrumentId < kFeedNInstruments) (h : lob.Shows reread r)
    (hx : (x.ofInstrument r.instrumentId && x.priced reread) = false) :
    ((x.fields reread).outcome.updates.foldl LobSoA.apply lob).Shows reread r := by
  rw [updates_fields hid]
  by_cases hpriced : x.priced reread = true
  · have hother : ∀ side, (x.sideUpdate reread side).slot.instrument ≠ r.instrumentId := by
      intro side he
      rw [slot_sideUpdate hid] at he
      rw [hpriced, Bool.and_true] at hx
      exact absurd (beq_iff_eq.mpr he) (Bool.eq_false_iff.mp hx)
    rw [if_pos hpriced]
    exact (hw.apply _).shows_other (hw.shows_other h (hother .bid)) (hother .ask)
  · rw [if_neg hpriced]
    exact h

/-- The book shows the last row of the instrument that the replay accepts. -/
theorem shows_bookAfter {rows : List (MasterRow K)}
    (hids : ∀ x ∈ rows, x.instrumentId < kFeedNInstruments) {i : Nat} {r : MasterRow K}
    (hlast : (rows.filter fun x => x.ofInstrument i && x.priced reread).getLast? = some r) :
    (bookAfter reread rows).Shows reread r := by
  induction rows using List.reverseRecOn with
  | nil => exact nomatch hlast
  | append_singleton rows x ih =>
    have hx : x.instrumentId < kFeedNInstruments := hids x (by simp)
    have hbook : bookAfter reread (rows ++ [x]) =
        (x.fields reread).outcome.updates.foldl LobSoA.apply (bookAfter reread rows) := by
      unfold bookAfter
      rw [List.flatMap_append, List.foldl_append, List.flatMap_singleton]
    have hsized : (bookAfter reread rows).Sized := (LobSoA.sized_init _ _).foldl_apply _
    have hdims : (bookAfter reread rows).nInstruments = kFeedNInstruments ∧
        (bookAfter reread rows).depth = 1 := LobSoA.foldl_apply_dims _
    rw [hbook]
    rw [List.filter_append] at hlast
    by_cases haccept : (x.ofInstrument i && x.priced reread) = true
    · have hone : [x].filter (fun x => x.ofInstrument i && x.priced reread) = [x] := by
        simpa using haccept
      rw [hone, List.getLast?_concat] at hlast
      cases hlast
      exact hsized.shows_apply hdims.1 hdims.2 hx (Bool.and_eq_true_iff.mp haccept).2
    · have hnone : [x].filter (fun x => x.ofInstrument i && x.priced reread) = [] := by
        simpa using haccept
      rw [hnone, List.append_nil] at hlast
      refine hsized.shows_row hx (ih (fun y hy => hids y (by simp [hy])) hlast) ?_
      have hr : r.ofInstrument i = true := by
        have hmem := List.mem_filter.mp (List.mem_of_getLast? hlast)
        exact (Bool.and_eq_true_iff.mp hmem.2).1
      rw [beq_iff_eq.mp hr]
      exact Bool.eq_false_iff.mpr haccept

theorem bookFollows_of_keepsOrder {s : SymbolFrames K} {file : List (MasterRow K)}
    (hfile : IsFile s file) (horder : KeepsOrder s file) : BookFollows reread s file := by
  intro frame hframe time r hlast
  have hids : ∀ x ∈ file, x.instrumentId < kFeedNInstruments := by
    intro x hx
    obtain ⟨frame, hframe, hmem⟩ := List.mem_flatMap.mp (hfile.perm.subset hx)
    obtain ⟨q, -, rfl⟩ := List.mem_map.mp hmem
    exact s.known frame hframe
  rw [takeWhile_upTo hfile.sorted]
  refine shows_bookAfter (i := frame.1) (fun x hx => hids x (List.mem_filter.mp hx).1) ?_
  rw [← hlast, ← horder frame hframe, List.filter_filter, List.filter_filter]
  refine congrArg (fun p => (file.filter p).getLast?) (funext fun x => ?_)
  rw [Bool.and_comm (x.upTo time && x.priced reread), Bool.and_assoc,
    Bool.and_comm (x.priced reread)]

/-- The rows of every symbol keep their order, and the book follows its last quotes,
whatever the sort does, exactly when the quotes of each symbol are in the order of time
and two quotes of one time are the same. -/
theorem merged_keepsOrder_iff (s : SymbolFrames K) :
    (∀ file, IsFile s file → KeepsOrder s file ∧ BookFollows reread s file) ↔
      ∀ frame ∈ s.frames, Settled MasterRow.timestampNs (frameRows frame) := by
  rw [← keepsOrder_iff]
  constructor
  · intro h file hfile
    exact (h file hfile).1
  · intro h file hfile
    exact ⟨h file hfile, bookFollows_of_keepsOrder hfile (h file hfile)⟩

end Book

/-! ## Two trades of one millisecond -/

def twoTrades : List (RawTrade ℚ) :=
  [⟨some 100, some 1, some 1700000000000, true⟩, ⟨some 99, some 2, some 1700000000000, true⟩]

def firstQuote : QuoteRow ℚ := ⟨1700000000000000000, some 100, some 1, some 100, some 0⟩

def secondQuote : QuoteRow ℚ := ⟨1700000000000000000, some 99, some 2, some 100, some 0⟩

def twoTradesFrames : SymbolFrames ℚ where
  frames := [(0, [firstQuote, secondQuote])]
  distinct := by decide
  known := by decide

/-- The sort may put the second quote first; the book then ends with the price of
the first trade. -/
theorem merged_swaps :
    fetchSymbolDay (List.insertionSort ByTime) 10 twoTrades = some [firstQuote, secondQuote] ∧
    IsFile twoTradesFrames [⟨0, secondQuote⟩, ⟨0, firstQuote⟩] ∧
    (bookAfter (fun x => x.getD 0) [⟨0, secondQuote⟩, ⟨0, firstQuote⟩]).price ⟨0, 0, .bid⟩ =
      some 100 ∧
    ¬ ∀ s : SymbolFrames ℚ, (∀ frame ∈ s.frames, ∃ chunksize day, 1 ≤ chunksize ∧
        fetchSymbolDay (List.insertionSort ByTime) chunksize day = some frame.2) →
      ∀ file, IsFile s file → KeepsOrder s file ∧ BookFollows (fun x => x.getD 0) s file := by
  have hday : fetchSymbolDay (List.insertionSort ByTime) 10 twoTrades =
      some [firstQuote, secondQuote] := by decide +kernel
  have hfile : IsFile twoTradesFrames [⟨0, secondQuote⟩, ⟨0, firstQuote⟩] :=
    ⟨List.Perm.swap _ _ _, by decide⟩
  refine ⟨hday, hfile, by decide +kernel, fun h => ?_⟩
  have horder := (h twoTradesFrames (fun frame hframe => ?_) _ hfile).1
  · exact absurd (horder _ List.mem_cons_self) (by decide)
  · rw [List.mem_singleton.mp hframe]
    exact ⟨10, twoTrades, by decide, hday⟩

end HoloMarket
