import HoloMarket.Core.LobBook
import HoloMarket.Net.SignalRouter
import HoloMarket.Net.WireQuantity

/-!
# The risk check of the live main loop

`main` of `main_live.cpp` from the return of `route` to `co_spawn`: the routed edges of
a signal are passed one by one, each against the position book and the order book of
that moment.  The position limit is looked up for the source of the edge.
-/

namespace HoloMarket

def kFeedNInstruments : Nat := 4

def kSymbolsUpper : List String := ["BTCUSDT", "ETHUSDT", "SOLUSDT", "BNBUSDT"]

def symbolOf (instrument : Nat) : String := kSymbolsUpper.getD instrument ""

variable {K : Type} [Field K] [LinearOrder K]

def orderSizeUsd : K := (100 : Nat)

def maxPositionUsd : K := (100000 : Nat)

def safeMakerPrice (symbol : String) (isBuy : Bool) (touchPrice : K) : K :=
  let tick : K := (fun tick : K => tick / (10 : Nat))^[(precisionFor symbol).priceDecimals] 1
  if isBuy then touchPrice - tick else touchPrice + tick

/-- What the loop sees when it comes to a routed edge. -/
structure Examined (K : Type) where
  edge : RoutedEdge K
  pnl : PnlBook K
  lob : LobSoA K

namespace Examined

/-- `|PnlBook qty| * mid_price` of an instrument. -/
def exposure (x : Examined K) (instrument : Nat) : K :=
  |(x.pnl.snapshot (symbolOf instrument)).qty| * x.lob.midPrice instrument

/-- The two legs, unless the source of the edge is past the limit. -/
def legs (x : Examined K) : Option (ArbLeg K × ArbLeg K) :=
  let isLong : Bool := 0 < x.edge.harmonicFlow
  let src := x.edge.srcInstrument
  let dst := x.edge.dstInstrument
  let sym1 := symbolOf src
  let sym2 := symbolOf dst
  if maxPositionUsd < x.exposure src then none
  else some
    ({ symbol := sym1
       side := if isLong then .Buy else .Sell
       qty := orderSizeUsd / x.lob.midPrice src
       price := safeMakerPrice sym1 isLong
        (if isLong then x.lob.bestBid src else x.lob.bestAsk src) },
     { symbol := sym2
       side := if isLong then .Sell else .Buy
       qty := orderSizeUsd / x.lob.midPrice dst
       price := safeMakerPrice sym2 (!isLong)
        (if isLong then x.lob.bestAsk dst else x.lob.bestBid dst) })

end Examined

/-- A signal as the dispatch loop meets it. -/
structure Dispatch (K : Type) where
  isHalted : Bool
  isAtCapacity : Bool
  examined : List (Examined K)

/-- The calls of `on_signal` that are spawned. -/
def Dispatch.spawned (d : Dispatch K) : List (Examined K × ArbLeg K × ArbLeg K) :=
  if d.isHalted || d.isAtCapacity then []
  else d.examined.filterMap fun x => x.legs.map fun legs => (x, legs)

/-! ## The limit over a run -/

/-- Every call of `on_signal` finds both instruments of its edge within the limit, so that
an instrument past it is in no call. -/
structure LimitCovers (run : List (Dispatch K)) : Prop where
  both : ∀ d ∈ run, ∀ c ∈ d.spawned,
    c.1.exposure c.1.edge.srcInstrument ≤ maxPositionUsd ∧
      c.1.exposure c.1.edge.dstInstrument ≤ maxPositionUsd
  stops : ∀ d ∈ run, ∀ c ∈ d.spawned, ∀ instrument,
    maxPositionUsd < c.1.exposure instrument →
      c.1.edge.srcInstrument ≠ instrument ∧ c.1.edge.dstInstrument ≠ instrument

/-- Wherever the loop comes to an edge whose source is within the limit, the destination
is so too. -/
def SourceDecides (run : List (Dispatch K)) : Prop :=
  ∀ d ∈ run, d.isHalted = false → d.isAtCapacity = false → ∀ x ∈ d.examined,
    x.exposure x.edge.srcInstrument ≤ maxPositionUsd →
      x.exposure x.edge.dstInstrument ≤ maxPositionUsd

namespace Examined

theorem legs_eq_none_iff (x : Examined K) :
    x.legs = none ↔ maxPositionUsd < x.exposure x.edge.srcInstrument := by
  unfold legs
  by_cases h : maxPositionUsd < x.exposure x.edge.srcInstrument
  · simp [h]
  · simp [h]

end Examined

theorem Dispatch.mem_spawned_iff {d : Dispatch K} {c : Examined K × ArbLeg K × ArbLeg K} :
    c ∈ d.spawned ↔ d.isHalted = false ∧ d.isAtCapacity = false ∧ c.1 ∈ d.examined ∧
      c.1.legs = some c.2 := by
  unfold spawned
  by_cases hskip : d.isHalted || d.isAtCapacity
  · rw [if_pos hskip]
    constructor
    · exact fun h => absurd h List.not_mem_nil
    · rintro ⟨hh, hc, -⟩
      rw [hh, hc] at hskip
      exact Bool.noConfusion hskip
  · rw [if_neg hskip, List.mem_filterMap]
    obtain ⟨hh, hc⟩ := Bool.or_eq_false_iff.mp (Bool.eq_false_iff.mpr hskip)
    constructor
    · rintro ⟨x, hx, hmap⟩
      obtain ⟨legs, hlegs, rfl⟩ := Option.map_eq_some_iff.mp hmap
      exact ⟨hh, hc, hx, hlegs⟩
    · rintro ⟨-, -, hx, hlegs⟩
      exact ⟨c.1, hx, by rw [hlegs]; rfl⟩

/-- The limit covers both instruments of every edge exactly when the check of the source
settles it for the destination. -/
theorem limitCovers_iff (run : List (Dispatch K)) : LimitCovers run ↔ SourceDecides run := by
  constructor
  · intro h d hd hh hc x hx hsrc
    cases hlegs : x.legs with
    | none => exact absurd ((Examined.legs_eq_none_iff x).mp hlegs) (not_lt.mpr hsrc)
    | some legs =>
      exact (h.both d hd (x, legs) (Dispatch.mem_spawned_iff.mpr ⟨hh, hc, hx, hlegs⟩)).2
  · intro h
    have hboth : ∀ d ∈ run, ∀ c ∈ d.spawned,
        c.1.exposure c.1.edge.srcInstrument ≤ maxPositionUsd ∧
          c.1.exposure c.1.edge.dstInstrument ≤ maxPositionUsd := by
      intro d hd c hcall
      obtain ⟨hh, hc, hx, hlegs⟩ := Dispatch.mem_spawned_iff.mp hcall
      have hsrc : c.1.exposure c.1.edge.srcInstrument ≤ maxPositionUsd := by
        refine not_lt.mp fun hlt => ?_
        rw [(Examined.legs_eq_none_iff c.1).mpr hlt] at hlegs
        cases hlegs
      exact ⟨hsrc, h d hd hh hc c.1 hx hsrc⟩
    refine ⟨hboth, fun d hd c hcall instrument hpast => ⟨?_, ?_⟩⟩
    · rintro rfl
      exact absurd (hboth d hd c hcall).1 (not_le.mpr hpast)
    · rintro rfl
      exact absurd (hboth d hd c hcall).2 (not_le.mpr hpast)

/-! ## An instrument that is never a source -/

def edgeOf (src dst : Nat) (flow : K) : RoutedEdge K :=
  ⟨src, dst, flow, 0, 0, 0⟩

/-- The book as constructed, every price 100. -/
def freshBook : LobSoA K := LobSoA.init kFeedNInstruments 1

section Growth

/-- The position book after an edge whose orders, if any, fill whole at their limits. -/
def trade (b : PnlBook K) (edge : RoutedEdge K) : PnlBook K :=
  match (Examined.mk edge b freshBook).legs with
  | none => b
  | some (leg1, leg2) =>
    (b.applyFill leg1.symbol leg1.side leg1.qty leg1.price).applyFill
      leg2.symbol leg2.side leg2.qty leg2.price

variable [IsStrictOrderedRing K]

theorem tick_bounds (d : Nat) :
    0 < (fun tick : K => tick / (10 : Nat))^[d] 1 ∧
      (fun tick : K => tick / (10 : Nat))^[d] 1 ≤ 1 := by
  have hten : (1 : K) ≤ (10 : Nat) := by norm_num
  induction d with
  | zero => exact ⟨one_pos, le_rfl⟩
  | succ d ih =>
    rw [Function.iterate_succ_apply']
    refine ⟨div_pos ih.1 (one_pos.trans_le hten), ?_⟩
    exact (div_le_self ih.1.le hten).trans ih.2

theorem safeMakerPrice_pos (symbol : String) (isBuy : Bool) {p : K} (hp : 1 < p) :
    0 < safeMakerPrice symbol isBuy p := by
  obtain ⟨hpos, hle⟩ := tick_bounds (K := K) (precisionFor symbol).priceDecimals
  unfold safeMakerPrice
  dsimp only
  split_ifs
  · linarith
  · linarith

omit [LinearOrder K] [IsStrictOrderedRing K] in
theorem best_freshBook {i : Nat} (hi : i < kFeedNInstruments) :
    (freshBook : LobSoA K).bestBid i = (100 : Nat) ∧
      (freshBook : LobSoA K).bestAsk i = (100 : Nat) := by
  have hlt : i * 1 < kFeedNInstruments * 1 := by omega
  have hcell : (List.replicate (kFeedNInstruments * 1) ((100 : Nat) : K)).getD (i * 1) 0 =
      (100 : Nat) := by
    rw [List.getD_eq_getElem?_getD, List.getElem?_replicate_of_lt hlt]
    rfl
  exact ⟨hcell, hcell⟩

theorem midPrice_freshBook {i : Nat} (hi : i < kFeedNInstruments) :
    (freshBook : LobSoA K).midPrice i = (100 : Nat) := by
  unfold LobSoA.midPrice
  rw [(best_freshBook hi).1, (best_freshBook hi).2]
  norm_num

theorem legs_freshBook {src dst : Nat} (hs : src < kFeedNInstruments) (hd : dst < kFeedNInstruments)
    (flow : K) {b : PnlBook K} (hb : |(b.snapshot (symbolOf src)).qty| ≤ 1) :
    ∃ p1 p2 : K, 0 < p1 ∧ 0 < p2 ∧ (Examined.mk (edgeOf src dst flow) b freshBook).legs =
      some (⟨symbolOf src, if 0 < flow then .Buy else .Sell, 1, p1⟩,
        ⟨symbolOf dst, if 0 < flow then .Sell else .Buy, 1, p2⟩) := by
  have hcheck : ¬ maxPositionUsd <
      (Examined.mk (edgeOf src dst flow) b freshBook).exposure src := by
    unfold Examined.exposure maxPositionUsd
    dsimp only
    rw [midPrice_freshBook hs]
    push_cast
    linarith
  have hunit : (orderSizeUsd : K) / (100 : Nat) = 1 := by
    unfold orderSizeUsd
    norm_num
  have hhundred : (1 : K) < (100 : Nat) := by norm_num
  refine ⟨_, _, safeMakerPrice_pos (symbolOf src) (0 < flow) hhundred,
    safeMakerPrice_pos (symbolOf dst) (!decide (0 < flow)) hhundred, ?_⟩
  unfold Examined.legs
  dsimp only
  rw [if_neg (show ¬ maxPositionUsd < (Examined.mk (edgeOf src dst flow) b freshBook).exposure
    (edgeOf src dst flow).srcInstrument from hcheck)]
  unfold edgeOf
  dsimp only
  rw [midPrice_freshBook hs, midPrice_freshBook hd, hunit, (best_freshBook hs).1,
    (best_freshBook hs).2, (best_freshBook hd).1, (best_freshBook hd).2, ite_self]
  by_cases hf : 0 < flow <;> simp [hf]

theorem trade_qty (src dst : Nat) (hs : src < kFeedNInstruments) (hd : dst < kFeedNInstruments)
    (flow : K) {b : PnlBook K} (hb : |(b.snapshot (symbolOf src)).qty| ≤ 1) (sym : String) :
    ((trade b (edgeOf src dst flow)).snapshot sym).qty =
      (b.snapshot sym).qty +
        (if sym = symbolOf src then (if 0 < flow then Side.Buy else Side.Sell).signedDir * 1
          else 0) +
        (if sym = symbolOf dst then (if 0 < flow then Side.Sell else Side.Buy).signedDir * 1
          else 0) := by
  obtain ⟨p1, p2, hp1, hp2, hlegs⟩ := legs_freshBook hs hd flow hb
  unfold trade
  rw [hlegs]
  dsimp only
  rw [PnlBook.snapshot_applyFill_qty _ _ _ _ one_pos hp2,
    PnlBook.snapshot_applyFill_qty _ _ _ _ one_pos hp1]

/-- Two edges of instrument 0: bought against the last instrument, sold against the
second. -/
def twoEdges : List (RoutedEdge K) := [edgeOf 0 3 1, edgeOf 0 1 (-1)]

/-- The last instrument is sold once in every round, without end, while the source of
both edges comes out flat. -/
theorem never_source_grows (n : Nat) :
    let b := ((List.replicate n (twoEdges : List (RoutedEdge K))).flatten).foldl trade PnlBook.init
    (b.snapshot "BTCUSDT").qty = 0 ∧ (b.snapshot "BNBUSDT").qty = -n := by
  have hzero : symbolOf 0 = "BTCUSDT" := rfl
  have hone : symbolOf 1 = "ETHUSDT" := rfl
  have hthree : symbolOf 3 = "BNBUSDT" := rfl
  induction n with
  | zero =>
    rw [Nat.cast_zero, neg_zero]
    exact ⟨rfl, rfl⟩
  | succ n ih =>
    obtain ⟨hbtc, hbnb⟩ := ih
    rw [List.replicate_succ', List.flatten_append, List.foldl_append, List.flatten_singleton]
    generalize ((List.replicate n (twoEdges : List (RoutedEdge K))).flatten).foldl trade
      PnlBook.init = b at hbtc hbnb ⊢
    have hb : |(b.snapshot (symbolOf 0)).qty| ≤ 1 := by
      rw [hzero, hbtc, abs_zero]
      exact zero_le_one
    have hfirst := trade_qty 0 3 (by decide) (by decide) (1 : K) hb
    have hb' : |((trade b (edgeOf 0 3 1)).snapshot (symbolOf 0)).qty| ≤ 1 := by
      rw [hfirst, hzero, hbtc, hthree]
      simp [Side.signedDir]
    have hsecond := trade_qty 0 1 (by decide) (by decide) (-1 : K) hb'
    show ((trade (trade b (edgeOf 0 3 1)) (edgeOf 0 1 (-1))).snapshot "BTCUSDT").qty = 0 ∧
      ((trade (trade b (edgeOf 0 3 1)) (edgeOf 0 1 (-1))).snapshot "BNBUSDT").qty = -(n + 1 : Nat)
    rw [hsecond, hsecond, hfirst, hfirst, hzero, hone, hthree, hbtc, hbnb]
    have hshort : ¬ (1 : K) < 0 := not_lt.mpr zero_le_one
    constructor
    · simp [Side.signedDir, hshort]
    · simp [Side.signedDir]
      ring

end Growth

/-- A short position in the last instrument of twice the limit. -/
theorem last_instrument_unchecked :
    ¬ LimitCovers [⟨false, false, [⟨edgeOf 0 3 (1 : ℚ),
      PnlBook.init.applyFill "BNBUSDT" .Sell 2000 100, freshBook⟩]⟩] := by
  rw [limitCovers_iff]
  intro h
  have hdst := h _ List.mem_cons_self rfl rfl _ List.mem_cons_self (by decide +kernel)
  exact absurd hdst (by decide +kernel)

end HoloMarket
