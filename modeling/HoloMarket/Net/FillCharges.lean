import Mathlib.Algebra.Order.Field.Rat
import Mathlib.Algebra.Order.Ring.Unbundled.Rat
import HoloMarket.Lib.DeltaLedger
import HoloMarket.Net.ExecutionEngine

/-!
# FillCharges: what apply_fill_pnl books for each order

`last_filled_` and `last_commission_` are kept under the exchange order id alone
and never erased.  A final record is booked by the difference to what its id has
been booked before, whichever order and symbol that was for.
-/

namespace HoloMarket

variable {K : Type*} [Field K] [LinearOrder K]

/-- A record and the leg it is charged to. -/
abbrev LegFill (K : Type*) := OrderRecord K × ArbLeg K

namespace LegFill

def exchangeOrderId (f : LegFill K) : Int := f.1.exchangeOrderId

def symbol (f : LegFill K) : String := f.2.symbol

def filledQty (f : LegFill K) : K := f.1.filledQty

def commission (f : LegFill K) : K := f.1.cumulativeCommission

/-- What a record of an order looks like: a fill has a price, and a fee is not
negative. -/
structure WellFormed (f : LegFill K) : Prop where
  filledQty : 0 ≤ f.filledQty
  price : 0 < f.filledQty → 0 < f.1.avgFillPrice
  commission : 0 ≤ f.commission

instance (f : LegFill K) : Decidable f.WellFormed :=
  decidable_of_iff (0 ≤ f.filledQty ∧ (0 < f.filledQty → 0 < f.1.avgFillPrice) ∧
    0 ≤ f.commission) ⟨fun h => ⟨h.1, h.2.1, h.2.2⟩, fun h => ⟨h.1, h.2, h.3⟩⟩

end LegFill

namespace PnlCall

/-- The quantity that a call adds for `sym`, whatever its direction. -/
def fillOf (sym : String) : PnlCall K → K
  | .applyFill symbol _ q _ => if symbol = sym then q else 0
  | .applyCommission _ _ => 0

def commissionOf (sym : String) : PnlCall K → K
  | .applyFill _ _ _ _ => 0
  | .applyCommission symbol c => if symbol = sym then c else 0

end PnlCall

namespace ExecutionEngine

/-- `apply_fill_pnl(rec, leg)` on the engine. -/
def chargeFill (eng : ExecutionEngine K) (f : LegFill K) : ExecutionEngine K :=
  eng.applyFillPnl f.1 f.2.symbol f.2.side

/-- The calls it makes on the book. -/
def pnlCalls (eng : ExecutionEngine K) (f : LegFill K) : List (PnlCall K) :=
  let delta := f.filledQty - (eng.lastFilled.lookup f.exchangeOrderId).getD 0
  let commDelta := f.commission - (eng.lastCommission.lookup f.exchangeOrderId).getD 0
  (if qtyEps < delta ∧ 0 < f.1.avgFillPrice then
      [.applyFill f.symbol f.2.side delta f.1.avgFillPrice] else []) ++
    if qtyEps < commDelta then [.applyCommission f.symbol commDelta] else []

/-- The calls for a list of records, in the order in which they are passed. -/
def allPnlCalls (eng : ExecutionEngine K) : List (LegFill K) → List (PnlCall K)
  | [] => []
  | f :: l => eng.pnlCalls f ++ (eng.chargeFill f).allPnlCalls l

theorem chargeFill_pnl (eng : ExecutionEngine K) (f : LegFill K) :
    (eng.chargeFill f).pnl = (eng.pnlCalls f).foldl PnlCall.apply eng.pnl := by
  unfold chargeFill applyFillPnl pnlCalls LegFill.filledQty LegFill.commission
    LegFill.exchangeOrderId LegFill.symbol
  dsimp only
  split_ifs <;> rfl

/-- The book after a list of records is the book after those calls. -/
theorem chargeAll_pnl (eng : ExecutionEngine K) (l : List (LegFill K)) :
    (l.foldl chargeFill eng).pnl = (eng.allPnlCalls l).foldl PnlCall.apply eng.pnl := by
  induction l generalizing eng with
  | nil => rfl
  | cons f l ih =>
    rw [List.foldl_cons, ih, chargeFill_pnl]
    show _ = (eng.pnlCalls f ++ (eng.chargeFill f).allPnlCalls l).foldl PnlCall.apply eng.pnl
    rw [List.foldl_append]

/-- The maps hold what the records before reported last under each id. -/
structure Charged (eng : ExecutionEngine K) (before : List (LegFill K)) : Prop where
  filled : ∀ x, (eng.lastFilled.lookup x).getD 0 =
    DeltaLedger.prior LegFill.exchangeOrderId LegFill.filledQty before x
  commission : ∀ x, (eng.lastCommission.lookup x).getD 0 =
    DeltaLedger.prior LegFill.exchangeOrderId LegFill.commission before x

omit [LinearOrder K] in
theorem charged_init (maxOpenOrders : Nat) :
    Charged (init maxOpenOrders : ExecutionEngine K) [] :=
  ⟨fun _ => rfl, fun _ => rfl⟩

theorem Charged.chargeFill {eng : ExecutionEngine K} {before : List (LegFill K)}
    (h : eng.Charged before) (f : LegFill K) : (eng.chargeFill f).Charged (before ++ [f]) := by
  constructor
  · intro x
    rw [DeltaLedger.prior_concat]
    show ((eng.lastFilled.insert f.exchangeOrderId f.filledQty).lookup x).getD 0 = _
    split_ifs with hx
    · rw [hx, AList.lookup_insert]
      rfl
    · rw [AList.lookup_insert_ne (Ne.symm hx)]
      exact h.filled x
  · intro x
    rw [DeltaLedger.prior_concat]
    show ((eng.lastCommission.insert f.exchangeOrderId f.commission).lookup x).getD 0 = _
    split_ifs with hx
    · rw [hx, AList.lookup_insert]
      rfl
    · rw [AList.lookup_insert_ne (Ne.symm hx)]
      exact h.commission x

variable {eng : ExecutionEngine K} {before : List (LegFill K)}

theorem commissionOf_pnlCalls (h : eng.Charged before) (f : LegFill K) (sym : String) :
    ((eng.pnlCalls f).map (PnlCall.commissionOf sym)).sum =
      if f.symbol = sym then
        DeltaLedger.charge LegFill.exchangeOrderId LegFill.commission qtyEps before f else 0 := by
  unfold pnlCalls DeltaLedger.charge
  dsimp only
  rw [h.commission]
  split_ifs <;> simp_all [PnlCall.commissionOf]

variable [IsStrictOrderedRing K]

/-- One record's fill goes to its own symbol; the guard on the price never
matters. -/
theorem fillOf_pnlCalls (h : eng.Charged before) (hb : ∀ g ∈ before, g.WellFormed)
    {f : LegFill K} (hf : f.WellFormed) (sym : String) :
    ((eng.pnlCalls f).map (PnlCall.fillOf sym)).sum =
      if f.symbol = sym then
        DeltaLedger.charge LegFill.exchangeOrderId LegFill.filledQty qtyEps before f else 0 := by
  have hprior : 0 ≤ DeltaLedger.prior LegFill.exchangeOrderId LegFill.filledQty before
      f.exchangeOrderId :=
    DeltaLedger.prior_nonneg (fun g hg => (hb g hg).filledQty) _
  have hprice : qtyEps < f.filledQty - DeltaLedger.prior LegFill.exchangeOrderId
      LegFill.filledQty before f.exchangeOrderId → 0 < f.1.avgFillPrice := by
    intro hlt
    exact hf.price ((qtyEps_pos.trans hlt).trans_le (sub_le_self _ hprior))
  unfold pnlCalls DeltaLedger.charge
  dsimp only
  rw [h.filled]
  split_ifs <;> simp_all [PnlCall.fillOf]

theorem sum_allPnlCalls (h : eng.Charged before) (hb : ∀ g ∈ before, g.WellFormed)
    {l : List (LegFill K)} (hl : ∀ f ∈ l, f.WellFormed) (sym : String) :
    ((eng.allPnlCalls l).map (PnlCall.fillOf sym)).sum =
        DeltaLedger.charged LegFill.exchangeOrderId LegFill.symbol LegFill.filledQty qtyEps sym
          before l ∧
      ((eng.allPnlCalls l).map (PnlCall.commissionOf sym)).sum =
        DeltaLedger.charged LegFill.exchangeOrderId LegFill.symbol LegFill.commission qtyEps sym
          before l := by
  induction l generalizing eng before with
  | nil => exact ⟨rfl, rfl⟩
  | cons f l ih =>
    have hf := hl f List.mem_cons_self
    have hb' : ∀ g ∈ before ++ [f], g.WellFormed := by
      intro g hg
      rcases List.mem_append.mp hg with hg | hg
      · exact hb g hg
      · rw [List.mem_singleton.mp hg]
        exact hf
    obtain ⟨hfill, hcomm⟩ := ih (h.chargeFill f) hb' fun g hg => hl g (List.mem_cons_of_mem f hg)
    have hcons : eng.allPnlCalls (f :: l) =
        eng.pnlCalls f ++ (eng.chargeFill f).allPnlCalls l := rfl
    rw [hcons, List.map_append, List.sum_append, List.map_append, List.sum_append, hfill, hcomm,
      fillOf_pnlCalls h hb hf, commissionOf_pnlCalls h]
    exact ⟨rfl, rfl⟩

end ExecutionEngine

/-! ## Every order for itself -/

/-- Each symbol is booked what its own orders filled and paid. -/
def BooksOwnFills (maxOpenOrders : Nat) (l : List (LegFill K)) : Prop :=
  ∀ sym,
    (((ExecutionEngine.init maxOpenOrders).allPnlCalls l).map (PnlCall.fillOf sym)).sum =
        ((l.filter fun f => f.symbol = sym).map LegFill.filledQty).sum ∧
      (((ExecutionEngine.init maxOpenOrders).allPnlCalls l).map
          (PnlCall.commissionOf sym)).sum =
        ((l.filter fun f => f.symbol = sym).map LegFill.commission).sum

/-- Each record that has filled something has filled more than `1e-12`, and the
record passed last under its exchange order id had filled nothing; and so for the
commission. -/
def IdsApart (l : List (LegFill K)) : Prop :=
  DeltaLedger.Unshadowed LegFill.exchangeOrderId LegFill.filledQty ExecutionEngine.qtyEps [] l ∧
    DeltaLedger.Unshadowed LegFill.exchangeOrderId LegFill.commission ExecutionEngine.qtyEps [] l

instance (l : List (LegFill K)) : Decidable (IdsApart l) := inferInstanceAs (Decidable (_ ∧ _))

/-- The book after a list of records is that after the calls that are counted here. -/
theorem booksOwnFills_iff [IsStrictOrderedRing K] (maxOpenOrders : Nat) {l : List (LegFill K)}
    (hl : ∀ f ∈ l, f.WellFormed) :
    (l.foldl ExecutionEngine.chargeFill (ExecutionEngine.init maxOpenOrders)).pnl =
        ((ExecutionEngine.init maxOpenOrders).allPnlCalls l).foldl PnlCall.apply PnlBook.init ∧
      (BooksOwnFills maxOpenOrders l ↔ IdsApart l) := by
  refine ⟨ExecutionEngine.chargeAll_pnl _ l, ?_⟩
  have hsum := ExecutionEngine.sum_allPnlCalls (ExecutionEngine.charged_init maxOpenOrders)
    (fun _ hg => absurd hg List.not_mem_nil) hl
  have hnil : ∀ (total : LegFill K → K), ∀ b ∈ ([] : List (LegFill K)), 0 ≤ total b :=
    fun _ _ hb => absurd hb List.not_mem_nil
  unfold IdsApart
  rw [← DeltaLedger.charged_eq_reported_iff LegFill.symbol
      ExecutionEngine.qtyEps_pos.le (fun f hf => (hl f hf).filledQty) (hnil _),
    ← DeltaLedger.charged_eq_reported_iff LegFill.symbol
      ExecutionEngine.qtyEps_pos.le (fun f hf => (hl f hf).commission) (hnil _), ← forall_and]
  refine forall_congr' fun sym => ?_
  rw [(hsum sym).1, (hsum sym).2]
  exact Iff.rfl

/-- A record of an order for `symbol` that the exchange numbered `id`. -/
def filledOrder (cid symbol : String) (id : Int) (qty commission : Rat) : LegFill Rat :=
  ({ OrderRecord.fresh cid symbol .Buy 100 qty ⟨0, 0⟩ with
      status := .Filled
      filledQty := qty
      avgFillPrice := 100
      cumulativeCommission := commission
      exchangeOrderId := id },
    { symbol := symbol, side := .Buy, qty := qty, price := 100 })

/-- Different numbers, and a number that was used for an order without a fill. -/
theorem booksOwnFills_apart :
    BooksOwnFills 8 [filledOrder "HM0" "BTCUSDT" 7 0 0, filledOrder "HM1" "ETHUSDT" 7 2 1,
      filledOrder "HM2" "BTCUSDT" 8 1 1] :=
  (booksOwnFills_iff 8 (by decide +kernel)).2.mpr (by decide +kernel)

/-- Two symbols with one number: the second order is booked not at all. -/
theorem filled_shadowed :
    let l := [filledOrder "HM0" "BTCUSDT" 7 1 1, filledOrder "HM1" "ETHUSDT" 7 1 1]
    (l.map fun f => (f.symbol, f.exchangeOrderId)).Nodup ∧
      (l.map fun f => f.1.clientOrderId).Nodup ∧
      ((l.filter fun f => f.symbol = "ETHUSDT").map LegFill.filledQty).sum = 1 ∧
        (((ExecutionEngine.init 8).allPnlCalls l).map (PnlCall.fillOf "ETHUSDT")).sum = 0 := by
  decide +kernel

end HoloMarket
