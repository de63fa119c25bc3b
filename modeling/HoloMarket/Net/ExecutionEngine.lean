import Mathlib.Algebra.Order.Field.Basic
import Mathlib.Data.Finset.Basic
import HoloMarket.Net.PnlBook
import HoloMarket.Net.UserDataFeed

/-!
# ExecutionEngine: the engine object

The members of `ExecutionEngine` in `execution_engine.hpp` and the calls that
run without suspending: the update callback, the waiter registry, the PnL
plumbing, the in-flight sets and the halt latch.  A channel is named by the
number of the order it was created for and holds the copies that `try_send`
buffered.  The log lines, their throttle counters and the halt flag file are
left out: nothing reads them back.
-/

namespace HoloMarket

variable {K : Type*}

structure ArbLeg (K : Type*) where
  symbol : String
  side : Side
  qty : K
  price : K
deriving DecidableEq, Repr

structure ExecutionEngine (K : Type*) where
  oms : OMSCore K
  pnl : PnlBook K
  seq : Nat
  maxOpenOrders : Nat
  halted : Bool
  consecutiveRejects : Nat
  pnlHighWaterMark : K
  inflightPairs : Finset String
  inflightSymbols : Finset String
  /-- From a key to the channel of its waiter. -/
  waiters : AList fun _ : UInt64 => Nat
  chans : Nat → List (OrderRecord K)
  /-- Both keyed by exchange order id. -/
  lastFilled : AList fun _ : Int => K
  lastCommission : AList fun _ : Int => K

/-- The id `next_client_id` makes of the counter value `n`. -/
def clientId (n : Nat) : String := "holo-" ++ toString (n % 2 ^ 64)

def pairKey (leg1 leg2 : ArbLeg K) : String := leg1.symbol ++ "|" ++ leg2.symbol

namespace ExecutionEngine

def kChanBuffer : Nat := 16

def kMaxConsecutiveRejects : Nat := 5

def init [Field K] (maxOpenOrders : Nat) : ExecutionEngine K where
  oms := OMSCore.init
  pnl := PnlBook.init
  seq := 0
  maxOpenOrders := maxOpenOrders
  halted := false
  consecutiveRejects := 0
  pnlHighWaterMark := 0
  inflightPairs := ∅
  inflightSymbols := ∅
  waiters := ∅
  chans := fun _ => []
  lastFilled := ∅
  lastCommission := ∅

/-! ## The circuit breaker -/

def forceHalt (eng : ExecutionEngine K) : ExecutionEngine K := { eng with halted := true }

def resetHalt (eng : ExecutionEngine K) : ExecutionEngine K :=
  { eng with halted := false, consecutiveRejects := 0 }

def checkDrawdown [Field K] [LinearOrder K] (eng : ExecutionEngine K)
    (currentTotalPnl maxDrawdownUsd : K) : ExecutionEngine K :=
  let peak := if eng.pnlHighWaterMark < currentTotalPnl then currentTotalPnl
    else eng.pnlHighWaterMark
  { eng with
    pnlHighWaterMark := peak
    halted := eng.halted || decide (maxDrawdownUsd ≤ peak - currentTotalPnl) }

/-- The first part of `dispatch_update`. -/
def countRejects (eng : ExecutionEngine K) (status : OrderStatus) : ExecutionEngine K :=
  match status with
  | .Rejected =>
    let n := eng.consecutiveRejects + 1
    { eng with
      consecutiveRejects := n
      halted := eng.halted || decide (kMaxConsecutiveRejects ≤ n) }
  | .Open | .Filled => { eng with consecutiveRejects := 0 }
  | _ => eng

/-! ## Waiters -/

/-- The channel of `key`; `n` names the one that is made when there is none. -/
def getOrCreateWaiter (eng : ExecutionEngine K) (key : UInt64) (n : Nat) :
    ExecutionEngine K × Nat :=
  match eng.waiters.lookup key with
  | some chan => (eng, chan)
  | none =>
    ({ eng with
       waiters := eng.waiters.insert key n
       chans := Function.update eng.chans n [] }, n)

/-- `try_send` on a full channel drops the message. -/
def trySend (eng : ExecutionEngine K) (chan : Nat) (rec : OrderRecord K) : ExecutionEngine K :=
  if (eng.chans chan).length < kChanBuffer then
    { eng with chans := Function.update eng.chans chan (eng.chans chan ++ [rec]) }
  else eng

def dispatchUpdate (eng : ExecutionEngine K) (rec : OrderRecord K) : ExecutionEngine K :=
  let eng := eng.countRejects rec.status
  match eng.waiters.lookup (fnv1a64 rec.clientOrderId) with
  | none => eng
  | some chan => eng.trySend chan rec

def releaseTerminal (eng : ExecutionEngine K) (key : UInt64) : ExecutionEngine K :=
  { eng with oms := eng.oms.release key, waiters := eng.waiters.erase key }

/-! ## Orders and updates -/

/-- `next_client_id()` and the counter after it. -/
def nextClientId (eng : ExecutionEngine K) : ExecutionEngine K × Nat :=
  ({ eng with seq := eng.seq + 1 }, eng.seq)

section
variable [Field K]

/-- `register_new_order` together with the update callback it fires. -/
def registerNewOrder (eng : ExecutionEngine K) (clientOrderId symbol : String) (side : Side)
    (price qty : K) (t : Clock) : ExecutionEngine K :=
  let (oms, _, rec) := eng.oms.registerNewOrder clientOrderId symbol side price qty t
  { eng with oms := oms }.dispatchUpdate rec

variable [LinearOrder K]

/-- `apply_update` together with the update callback it fires. -/
def applyUpdate (eng : ExecutionEngine K) (key : UInt64) (u : UpdateArgs K) :
    ExecutionEngine K :=
  match eng.oms.applyUpdate key u.newStatus u.cumulativeFilledQty u.lastFillPrice
      u.exchangeOrderId u.eventNs u.commissionDelta with
  | none => eng
  | some (oms, rec) => { eng with oms := oms }.dispatchUpdate rec

/-- `handle_order_trade_update`. -/
def handleOrderTradeUpdate (eng : ExecutionEngine K) (o : OrderTradeUpdate K) :
    ExecutionEngine K :=
  match o.read with
  | none => eng
  | some (clientId, u) => eng.applyUpdate (fnv1a64 clientId) u

/-- What the gateway writes when a request is refused. -/
def rejectArgs (nowNs : Int) : UpdateArgs K where
  newStatus := .Rejected
  cumulativeFilledQty := 0
  lastFillPrice := 0
  exchangeOrderId := 0
  eventNs := nowNs
  commissionDelta := 0

/-- `1e-12`. -/
def qtyEps : K := 1 / (10 ^ 12 : Nat)

theorem qtyEps_pos [IsStrictOrderedRing K] : (0 : K) < qtyEps := by
  unfold qtyEps
  positivity

/-- Charges the part of the cumulative fill and commission of a record that its
exchange order id has not been charged for. -/
def applyFillPnl (eng : ExecutionEngine K) (rec : OrderRecord K) (symbol : String)
    (side : Side) : ExecutionEngine K :=
  let delta := rec.filledQty - (eng.lastFilled.lookup rec.exchangeOrderId).getD 0
  let pnl :=
    if qtyEps < delta ∧ 0 < rec.avgFillPrice then
      eng.pnl.applyFill symbol side delta rec.avgFillPrice
    else eng.pnl
  let commDelta :=
    rec.cumulativeCommission - (eng.lastCommission.lookup rec.exchangeOrderId).getD 0
  { eng with
    pnl := if qtyEps < commDelta then pnl.applyCommission symbol commDelta else pnl
    lastFilled := eng.lastFilled.insert rec.exchangeOrderId rec.filledQty
    lastCommission := eng.lastCommission.insert rec.exchangeOrderId rec.cumulativeCommission }

end

/-! ## In-flight pairs -/

def claimInflight (eng : ExecutionEngine K) (leg1 leg2 : ArbLeg K) : ExecutionEngine K :=
  { eng with
    inflightPairs := insert (pairKey leg1 leg2) eng.inflightPairs
    inflightSymbols := insert leg2.symbol (insert leg1.symbol eng.inflightSymbols) }

/-- The symbols to free are read back from the key, split at its first `|`. -/
def clearInflight (eng : ExecutionEngine K) (key : String) : ExecutionEngine K :=
  let eng := { eng with inflightPairs := eng.inflightPairs.erase key }
  match key.toList.span (· != '|') with
  | (left, _ :: right) =>
    { eng with
      inflightSymbols :=
        (eng.inflightSymbols.erase (String.ofList left)).erase (String.ofList right) }
  | (_, []) => eng

def isAtCapacity (eng : ExecutionEngine K) : Bool :=
  decide (eng.maxOpenOrders ≤ eng.oms.liveOrderCount)

/-- The guards of `on_signal`. -/
def admits (eng : ExecutionEngine K) (leg1 leg2 : ArbLeg K) : Bool :=
  !eng.halted && !eng.isAtCapacity &&
    decide (leg1.symbol ∉ eng.inflightSymbols ∧ leg2.symbol ∉ eng.inflightSymbols)

end ExecutionEngine
end HoloMarket
