import Mathlib.Data.Rat.Floor
import HoloMarket.Lib.DecimalText
import HoloMarket.Net.BinanceGateway
import HoloMarket.Net.FillAccounting
import HoloMarket.Net.PairMoves

/-!
# WireQuantity: the quantity in a request and the quantity in the OMS

An order is registered with the quantity it was given, and `build_order_msg`
writes that quantity to the decimals of the symbol.  The two are the same for a
whole number of steps of the symbol and for nothing else.
-/

namespace HoloMarket

/-! ## The text of an order -/

structure SymbolPrecision where
  qtyDecimals : Nat
  priceDecimals : Nat
deriving DecidableEq, Repr

def symbolPrecisionTable : List (String × SymbolPrecision) :=
  [("BTCUSDT", ⟨3, 1⟩), ("ETHUSDT", ⟨3, 2⟩), ("BNBUSDT", ⟨2, 2⟩), ("SOLUSDT", ⟨0, 3⟩)]

def precisionFor (symbol : String) : SymbolPrecision :=
  (symbolPrecisionTable.lookup symbol).getD ⟨2, 2⟩

variable {K : Type*} [Field K] [LinearOrder K] [FloorSemiring K]

def formatDecimal (v : K) (decimals : Nat) : String :=
  String.ofList (DecimalText.fixedPoint decimals v)

namespace OrderRequest

/-- `q_str`. -/
def quantityText (o : OrderRequest K) : String :=
  formatDecimal o.qty (precisionFor o.sym).qtyDecimals

/-- `p_str`. -/
def priceText (o : OrderRequest K) : String :=
  formatDecimal o.price (precisionFor o.sym).priceDecimals

def sideText (o : OrderRequest K) : String :=
  match o.side with
  | .Buy => "BUY"
  | .Sell => "SELL"

/-- The text that is signed. -/
def payload (o : OrderRequest K) (apiKey : String) (ts : Int) : String :=
  "apiKey=" ++ apiKey ++ "&newClientOrderId=" ++ o.cid ++
    (if 0 < o.price then "&price=" ++ o.priceText else "") ++
    "&quantity=" ++ o.quantityText ++ "&side=" ++ o.sideText ++ "&symbol=" ++ o.sym ++
    (if o.tif = "" then "" else "&timeInForce=" ++ o.tif) ++
    "&timestamp=" ++ toString ts ++ "&type=" ++ o.type

/-- `build_order_msg`; `sign` is the HMAC with the secret of the account. -/
def buildOrderMsg (o : OrderRequest K) (sign : String → String) (apiKey : String) (ts : Int)
    (id : Nat) : String :=
  "\x7b\"id\":\"" ++ toString id ++ "\",\"method\":\"order.place\",\"params\":\x7b" ++
    "\"apiKey\":\"" ++ apiKey ++ "\",\"newClientOrderId\":\"" ++ o.cid ++ "\"," ++
    (if 0 < o.price then "\"price\":\"" ++ o.priceText ++ "\"," else "") ++
    ("\"quantity\":\"" ++ o.quantityText ++ "\",") ++
    ("\"side\":\"" ++ o.sideText ++ "\",\"symbol\":\"" ++ o.sym ++ "\"," ++
      (if o.tif = "" then "" else "\"timeInForce\":\"" ++ o.tif ++ "\",") ++
      "\"timestamp\":" ++ toString ts ++ ",\"type\":\"" ++ o.type ++
      "\",\"signature\":\"" ++ sign (o.payload apiKey ts) ++ "\"\x7d\x7d")

/-- The quantity that the exchange reads. -/
def wireQty (o : OrderRequest K) : Option K := DecimalText.read o.quantityText.toList

end OrderRequest

/-! ## Whole steps -/

/-- `qty` is a whole number of steps of the symbol. -/
def OnStep (sym : String) (qty : K) : Prop :=
  ∃ n : Nat, qty * (10 ^ (precisionFor sym).qtyDecimals : Nat) = n

section
variable [IsStrictOrderedRing K]

theorem OrderRequest.wireQty_iff (o : OrderRequest K) (hq : 0 ≤ o.qty) :
    o.wireQty = some o.qty ↔ OnStep o.sym o.qty := by
  unfold wireQty quantityText formatDecimal OnStep
  rw [String.toList_ofList, Nat.cast_pow]
  exact DecimalText.read_fixedPoint_iff _ hq

end

/-- An order of `qty` of the symbol is on the books with the quantity it is sent
with. -/
structure QuantityOnBooks (sym : String) (side : Side) (qty : K) : Prop where
  /-- As a leg, or as a hedge, it says the quantity of its record. -/
  sent : ∀ (d : Desk K) (n : Nat) (price : K) (t : Clock) (r : OrderRecord K),
    (d.register n sym side price qty t).engine.oms.get (orderKey n) = some r →
      (BinanceGateway.limitPostOnly (clientId n) sym side price qty).wireQty = some r.qty ∧
        (BinanceGateway.market (clientId n) sym side qty).wireQty = some r.qty
  /-- Filled for what the exchange was asked for, nothing remains of it. -/
  filled : ∀ (cid : String) (price w : K) (t : Clock) (us : List (UpdateArgs K))
    (u : UpdateArgs K),
    (BinanceGateway.limitPostOnly cid sym side price qty).wireQty = some w →
      (∀ u ∈ us, u.cumulativeFilledQty ≤ w) → u.newStatus = .Filled →
        u.cumulativeFilledQty = w →
          (u.applyTo (us.foldl (fun r u => u.applyTo r)
            (OrderRecord.fresh cid sym side price qty t))).remainingQty = 0
  /-- As what remains of a leg, it is hedged in full. -/
  hedged : ∀ (d : Desk K) (p : PairTask K) (first : LegIx) (t : Clock) (v : VenueOrder K),
    (p.leg first.other).symbol = sym → ¬ qty ≤ ExecutionEngine.qtyEps →
      (d.hedgeRemaining p first qty t).1.exchange d.engine.seq = some v →
        (BinanceGateway.market v.clientOrderId v.symbol v.side v.qty).wireQty = some qty

section
variable [IsStrictOrderedRing K]

omit [FloorSemiring K] [IsStrictOrderedRing K] in
theorem UpdateArgs.filledQty_foldl_le {w : K} {us : List (UpdateArgs K)} {r : OrderRecord K}
    (hr : r.filledQty ≤ w) (hus : ∀ u ∈ us, u.cumulativeFilledQty ≤ w) :
    (us.foldl (fun r u => u.applyTo r) r).filledQty ≤ w := by
  induction us generalizing r with
  | nil => exact hr
  | cons u us ih =>
    refine ih ?_ fun u' hu' => hus u' (List.mem_cons_of_mem u hu')
    show (r.applyFill u.cumulativeFilledQty u.lastFillPrice).filledQty ≤ w
    unfold OrderRecord.applyFill
    split_ifs
    · exact hus u List.mem_cons_self
    · exact hus u List.mem_cons_self
    · exact hr

omit [FloorSemiring K] [IsStrictOrderedRing K] in
theorem UpdateArgs.qty_foldl (us : List (UpdateArgs K)) (r : OrderRecord K) :
    (us.foldl (fun r u => u.applyTo r) r).qty = r.qty := by
  induction us generalizing r with
  | nil => rfl
  | cons u us ih => exact (ih _).trans (OrderRecord.update_qty ..)

omit [LinearOrder K] [FloorSemiring K] [IsStrictOrderedRing K] in
theorem get_register (d : Desk K) (n : Nat) (sym : String) (side : Side) (price qty : K)
    (t : Clock) : (d.register n sym side price qty t).engine.oms.get (orderKey n) =
      some (OrderRecord.fresh (clientId n) sym side price qty t) := by
  rw [Desk.register_oms, OMSCore.get_registerNewOrder]
  exact if_pos rfl

theorem OnStep.quantityOnBooks {sym : String} {qty : K} (hq : 0 < qty) (h : OnStep sym qty)
    (side : Side) : QuantityOnBooks sym side qty := by
  have hwire : ∀ o : OrderRequest K, o.sym = sym → o.qty = qty → o.wireQty = some qty := by
    intro o hsym hqty
    have hiff := o.wireQty_iff (hqty.symm ▸ hq.le)
    rw [hsym, hqty] at hiff
    exact hiff.mpr h
  refine ⟨fun d n price t r hr => ?_, fun cid price w t us u hw hus _ hu => ?_,
    fun d p first t v hsym hopen hv => ?_⟩
  · rw [get_register] at hr
    have hqty : r.qty = qty := (congrArg OrderRecord.qty (Option.some.inj hr)).symm
    rw [hqty]
    exact ⟨hwire _ rfl rfl, hwire _ rfl rfl⟩
  · have hwq : w = qty := Option.some.inj (hw.symm.trans (hwire _ rfl rfl))
    subst hwq
    have hfilled : (us.foldl (fun r u => u.applyTo r)
        (OrderRecord.fresh cid sym side price w t)).filledQty ≤ w :=
      UpdateArgs.filledQty_foldl_le hq.le hus
    have hqty := UpdateArgs.qty_foldl us (OrderRecord.fresh cid sym side price w t)
    generalize us.foldl (fun r u => u.applyTo r) (OrderRecord.fresh cid sym side price w t) = r
      at hfilled hqty ⊢
    have hlast : ∀ u' ∈ [u], u'.cumulativeFilledQty ≤ w := by simp [hu]
    have hle : (u.applyTo r).filledQty ≤ w := UpdateArgs.filledQty_foldl_le hfilled hlast
    have hge : w ≤ (u.applyTo r).filledQty := hu ▸ u.cumulativeFilledQty_le_applyTo r
    have hsame : (u.applyTo r).qty = w := (OrderRecord.update_qty ..).trans hqty
    unfold OrderRecord.remainingQty
    rw [hsame, le_antisymm hle hge, sub_self]
  · rw [Desk.hedgeRemaining_open t hopen, Desk.openOrder_exchange, Function.update_self] at hv
    rw [← Option.some.inj hv]
    exact hwire _ hsym rfl

/-- The quantity of an order on the wire is that on the books exactly for whole
steps of its symbol. -/
theorem wire_quantity_iff {sym : String} {qty : K} (hq : 0 < qty) (side : Side) :
    QuantityOnBooks sym side qty ↔ OnStep sym qty := by
  refine ⟨fun h => ?_, fun h => h.quantityOnBooks hq side⟩
  have hsent := h.sent (World.init 0 fun _ => 0).desk 0 0 ⟨0, 0⟩ _ (get_register ..)
  exact (OrderRequest.wireQty_iff _ hq.le).mp hsent.2

/-- An eighth of a coin is 125 steps of a thousandth. -/
theorem wire_quantity_iff_eighth :
    0 < (1 / 8 : Rat) ∧ QuantityOnBooks "BTCUSDT" .Buy (1 / 8 : Rat) :=
  ⟨by norm_num, (wire_quantity_iff (by norm_num) .Buy).mpr ⟨125, by decide +kernel⟩⟩

/-- A hundred dollars of a coin at sixty thousand: registered as a six hundredth
of a coin, sent as `0.002`. -/
theorem order_size_off_step : ¬ QuantityOnBooks "BTCUSDT" .Buy (1 / 600 : Rat) := by
  intro h
  have hsent := h.sent (World.init 0 fun _ => 0).desk 0 0 ⟨0, 0⟩ _ (get_register ..)
  exact absurd hsent.2 (by decide +kernel)

end

end HoloMarket
