import HoloMarket.Lib.Machine
import HoloMarket.Net.ExecutionEngine
import HoloMarket.Net.Venue

/-!
# PairMonitor: the coroutines of a pair

`on_signal`, `monitor_pair` and the `watch_hedge` it spawns, as one task for each
pair: what runs between two suspension points is one step, and the suspension
point is the program counter.  Beside the engine stands the exchange, so that a
run is a list of events: a coroutine is resumed, something happens to an order
at the exchange, or an event of the stream is delivered.
-/

namespace HoloMarket

variable {K : Type*}

structure Desk (K : Type*) where
  engine : ExecutionEngine K
  /-- The orders handed to the gateway, by number. -/
  exchange : Nat → Option (VenueOrder K)
  orderId : Nat → Int
  /-- The cancel requests handed to the gateway: symbol and client id. -/
  cancels : List (String × String)

inductive LegIx where
  | leg1
  | leg2
deriving DecidableEq, Repr

def LegIx.other : LegIx → LegIx
  | .leg1 => .leg2
  | .leg2 => .leg1

/-- Where a pair is suspended.  `first` is the leg that settled first. -/
inductive PairPc where
  | sendingLeg1
  | sendingLeg2
  | racing
  /-- `first` was not filled: its partner's cancel is being sent. -/
  | cancelingPartner (first : LegIx)
  | awaitingPartner (first : LegIx)
  /-- `first` was filled: the race of the other leg and `kLegTimeout`. -/
  | legTimer (first : LegIx)
  | cancelingResting (first : LegIx)
  | awaitingResting (first : LegIx)
  | sendingHedge (first : LegIx) (hedge chan : Nat)
  /-- `monitor_pair` is done and `watch_hedge` waits. -/
  | watchingHedge (first : LegIx) (hedge chan : Nat)
  | finished (first : LegIx) (hedge : Option Nat)
  /-- The gateway call of `point` threw. -/
  | threw (point : PairPc)
deriving DecidableEq, Repr

structure PairTask (K : Type*) where
  id1 : Nat
  id2 : Nat
  leg1 : ArbLeg K
  leg2 : ArbLeg K
  chan1 : Nat
  chan2 : Nat
  pc : PairPc
deriving DecidableEq, Repr

namespace PairTask

def id (p : PairTask K) : LegIx → Nat
  | .leg1 => p.id1
  | .leg2 => p.id2

def leg (p : PairTask K) : LegIx → ArbLeg K
  | .leg1 => p.leg1
  | .leg2 => p.leg2

def chan (p : PairTask K) : LegIx → Nat
  | .leg1 => p.chan1
  | .leg2 => p.chan2

end PairTask

def orderKey (n : Nat) : UInt64 := fnv1a64 (clientId n)

inductive Resumption where
  | sent
  | threw
  /-- The message at the head of a leg's channel is received.  With `lost`, the
  other receiver of the race has taken its settling message as well. -/
  | receive (w : LegIx) (lost : Bool)
  | receiveHedge
  /-- The timer expires; `lost` as before. -/
  | timeout (lost : Bool)
deriving DecidableEq, Repr

namespace Desk

def takeMsg (d : Desk K) (chan : Nat) : Option (OrderRecord K × Desk K) :=
  match d.engine.chans chan with
  | [] => none
  | rec :: rest =>
    some (rec, { d with
      engine := { d.engine with chans := Function.update d.engine.chans chan rest } })

/-- A receiver that loses its race may have taken the message that settles. -/
def loseMsg (d : Desk K) (chan : Nat) (lost : Bool) : Option (Desk K) :=
  if lost then
    (d.takeMsg chan).bind fun (rec, d) => if rec.status.isTerminal then some d else none
  else some d

def cancelOrder (d : Desk K) (symbol cid : String) : Desk K :=
  { d with cancels := d.cancels ++ [(symbol, cid)] }

def sweep (d : Desk K) (maxAge steadyNs : Int) : Desk K :=
  { d with
    cancels := d.cancels ++ (d.engine.oms.getStaleOrders maxAge steadyNs).map fun rec =>
      (rec.symbol, rec.clientOrderId) }

def releaseTerminal (d : Desk K) (n : Nat) : Desk K :=
  { d with engine := d.engine.releaseTerminal (orderKey n) }

def clearInflight (d : Desk K) (p : PairTask K) : Desk K :=
  { d with engine := d.engine.clearInflight (pairKey p.leg1 p.leg2) }

/-- The first check of `await_authoritative_after_cancel`. -/
def settledRecord (d : Desk K) (n : Nat) : Option (OrderRecord K) :=
  (d.engine.oms.get (orderKey n)).filter fun rec => rec.status.isTerminal

def nextClientId (d : Desk K) : Desk K × Nat :=
  let (engine, n) := d.engine.nextClientId
  ({ d with engine := engine }, n)

def waiter (d : Desk K) (n : Nat) : Desk K × Nat :=
  let (engine, chan) := d.engine.getOrCreateWaiter (orderKey n) n
  ({ d with engine := engine }, chan)

variable [Field K]

/-- The snapshot that `await_authoritative_after_cancel` falls back on. -/
def lastKnown (d : Desk K) (n : Nat) : OrderRecord K :=
  (d.engine.oms.get (orderKey n)).getD OrderRecord.empty

def register (d : Desk K) (n : Nat) (symbol : String) (side : Side) (price qty : K)
    (t : Clock) : Desk K :=
  { d with engine := d.engine.registerNewOrder (clientId n) symbol side price qty t }

/-- `send_limit_post_only` or `send_market`: from here on the exchange may act on
the order. -/
def sendOrder (d : Desk K) (n : Nat) (symbol : String) (side : Side) (qty : K) : Desk K :=
  { d with
    exchange := Function.update d.exchange n
      (some (VenueOrder.arrive (clientId n) symbol side qty (d.orderId n))) }

def sendLeg (d : Desk K) (p : PairTask K) (w : LegIx) : Desk K :=
  d.sendOrder (p.id w) (p.leg w).symbol (p.leg w).side (p.leg w).qty

/-- `on_signal` up to the first send; no task is made when the signal is
dropped. -/
def onSignal (d : Desk K) (leg1 leg2 : ArbLeg K) (t : Clock) : Desk K × Option (PairTask K) :=
  if d.engine.admits leg1 leg2 then
    let d := { d with engine := d.engine.claimInflight leg1 leg2 }
    let (d, id1) := d.nextClientId
    let (d, id2) := d.nextClientId
    let d := d.register id1 leg1.symbol leg1.side leg1.price leg1.qty t
    let d := d.register id2 leg2.symbol leg2.side leg2.price leg2.qty t
    let (d, chan1) := d.waiter id1
    let (d, chan2) := d.waiter id2
    let p : PairTask K := { id1, id2, leg1, leg2, chan1, chan2, pc := .sendingLeg1 }
    (d.sendLeg p .leg1, some p)
  else (d, none)

variable [LinearOrder K]

def applyFillPnl (d : Desk K) (rec : OrderRecord K) (leg : ArbLeg K) : Desk K :=
  { d with engine := d.engine.applyFillPnl rec leg.symbol leg.side }

/-- `if (rec.filled_qty > 0.0) apply_fill_pnl(rec, leg);` -/
def applyPartial (d : Desk K) (rec : OrderRecord K) (leg : ArbLeg K) : Desk K :=
  if 0 < rec.filledQty then d.applyFillPnl rec leg else d

/-- `hedge_remaining` for the leg that did not settle first; when nothing is left
to hedge the pair is complete. -/
def hedgeRemaining (d : Desk K) (p : PairTask K) (first : LegIx) (remaining : K) (t : Clock) :
    Desk K × PairPc :=
  let leg := p.leg first.other
  if remaining ≤ ExecutionEngine.qtyEps then (d.clearInflight p, .finished first none)
  else
    let (d, hedge) := d.nextClientId
    let d := d.register hedge leg.symbol leg.side 0 remaining t
    let (d, chan) := d.waiter hedge
    (d.sendOrder hedge leg.symbol leg.side remaining, .sendingHedge first hedge chan)

def firstSettled (d : Desk K) (p : PairTask K) (first : LegIx) (rec : OrderRecord K) :
    Desk K × PairPc :=
  if rec.status ≠ .Filled then
    ((d.releaseTerminal (p.id first)).cancelOrder (p.leg first.other).symbol
      (clientId (p.id first.other)), .cancelingPartner first)
  else ((d.applyFillPnl rec (p.leg first)).releaseTerminal (p.id first), .legTimer first)

/-- `first` was not filled and its partner is settled, or given up. -/
def partnerSettled (d : Desk K) (p : PairTask K) (first : LegIx) (rec : OrderRecord K)
    (t : Clock) : Desk K × PairPc :=
  let d := d.releaseTerminal (p.id first.other)
  if 0 < rec.filledQty then
    (d.applyFillPnl rec (p.leg first.other)).hedgeRemaining p first (rec.qty - rec.filledQty) t
  else (d.clearInflight p, .finished first none)

def restingRaced (d : Desk K) (p : PairTask K) (first : LegIx) (rec : OrderRecord K)
    (t : Clock) : Desk K × PairPc :=
  if rec.status = .Filled then
    (((d.applyFillPnl rec (p.leg first.other)).releaseTerminal
      (p.id first.other)).clearInflight p, .finished first none)
  else
    ((d.applyPartial rec (p.leg first.other)).releaseTerminal
      (p.id first.other)).hedgeRemaining p first (rec.qty - rec.filledQty) t

/-- The other leg is settled, or given up, after the cancel. -/
def restingSettled (d : Desk K) (p : PairTask K) (first : LegIx) (rec : OrderRecord K)
    (t : Clock) : Desk K × PairPc :=
  let d := d.releaseTerminal (p.id first.other)
  if rec.status = .Filled then
    ((d.applyFillPnl rec (p.leg first.other)).clearInflight p, .finished first none)
  else
    (d.applyPartial rec (p.leg first.other)).hedgeRemaining p first (rec.qty - rec.filledQty) t

def hedgeSettled (d : Desk K) (p : PairTask K) (first : LegIx) (hedge : Nat)
    (rec : OrderRecord K) : Desk K × PairPc :=
  ((d.applyPartial rec (p.leg first.other)).releaseTerminal hedge, .finished first (some hedge))

/-! ## Resumption -/

/-- A message received in the race of the two legs: one that does not settle is
passed over. -/
def receiveFirst (d : Desk K) (p : PairTask K) (w : LegIx) (lost : Bool) :
    Option (Desk K × PairPc) :=
  (d.takeMsg (p.chan w)).bind fun (rec, d) =>
    if rec.status.isTerminal then
      (d.loseMsg (p.chan w.other) lost).map fun d => d.firstSettled p w rec
    else if lost then none else some (d, p.pc)

def receiveOn (d : Desk K) (p : PairTask K) (chan : Nat)
    (settled : Desk K → OrderRecord K → Desk K × PairPc) : Option (Desk K × PairPc) :=
  (d.takeMsg chan).map fun (rec, d) =>
    if rec.status.isTerminal then settled d rec else (d, p.pc)

def awaitAuthoritative (d : Desk K) (n : Nat)
    (settled : Desk K → OrderRecord K → Desk K × PairPc) (pc : PairPc) : Desk K × PairPc :=
  match d.settledRecord n with
  | some rec => settled d rec
  | none => (d, pc)

def resume (d : Desk K) (p : PairTask K) (r : Resumption) (t : Clock) :
    Option (Desk K × PairPc) :=
  match p.pc, r with
  | .sendingLeg1, .sent => some (d.sendLeg p .leg2, .sendingLeg2)
  | .sendingLeg2, .sent => some (d, .racing)
  | .racing, .receive w lost => d.receiveFirst p w lost
  | .cancelingPartner first, .sent =>
    some (d.awaitAuthoritative (p.id first.other)
      (fun d rec => d.partnerSettled p first rec t) (.awaitingPartner first))
  | .awaitingPartner first, .receive w false =>
    if w = first.other then
      d.receiveOn p (p.chan w) fun d rec => d.partnerSettled p first rec t
    else none
  | .awaitingPartner first, .timeout lost =>
    (d.loseMsg (p.chan first.other) lost).map fun d =>
      d.partnerSettled p first (d.lastKnown (p.id first.other)) t
  | .legTimer first, .receive w false =>
    if w = first.other then
      d.receiveOn p (p.chan w) fun d rec => d.restingRaced p first rec t
    else none
  | .legTimer first, .timeout lost =>
    (d.loseMsg (p.chan first.other) lost).map fun d =>
      (d.cancelOrder (p.leg first.other).symbol (clientId (p.id first.other)),
        .cancelingResting first)
  | .cancelingResting first, .sent =>
    some (d.awaitAuthoritative (p.id first.other)
      (fun d rec => d.restingSettled p first rec t) (.awaitingResting first))
  | .awaitingResting first, .receive w false =>
    if w = first.other then
      d.receiveOn p (p.chan w) fun d rec => d.restingSettled p first rec t
    else none
  | .awaitingResting first, .timeout lost =>
    (d.loseMsg (p.chan first.other) lost).map fun d =>
      d.restingSettled p first (d.lastKnown (p.id first.other)) t
  | .sendingHedge first hedge chan, .sent =>
    some (d.clearInflight p, .watchingHedge first hedge chan)
  | .watchingHedge first hedge chan, .receiveHedge =>
    d.receiveOn p chan fun d rec => d.hedgeSettled p first hedge rec
  | .sendingLeg1, .threw | .sendingLeg2, .threw | .cancelingPartner _, .threw
  | .cancelingResting _, .threw | .sendingHedge _ _ _, .threw =>
    some (d.clearInflight p, .threw p.pc)
  | _, _ => none

end Desk

/-! ## Runs -/

structure World (K : Type*) where
  desk : Desk K
  pairs : List (PairTask K)

inductive EngineEvent (K : Type*) where
  | signal (leg1 leg2 : ArbLeg K) (t : Clock)
  | resume (i : Nat) (r : Resumption) (t : Clock)
  | act (n : Nat) (a : VenueAction K) (tMs : Int)
  /-- The oldest undelivered event of an order is delivered. -/
  | deliver (n : Nat)
  /-- The request of an order is refused, and the gateway reports it. -/
  | refuse (n : Nat) (nowNs : Int)
  | sweep (maxAge steadyNs : Int)
  | forceHalt
  | resetHalt
  | checkDrawdown (currentTotalPnl maxDrawdownUsd : K)
deriving DecidableEq, Repr

namespace Desk

variable [Field K] [LinearOrder K]

def act (d : Desk K) (n : Nat) (a : VenueAction K) (tMs : Int) : Option (Desk K) :=
  (d.exchange n).bind fun v =>
    (v.act a tMs).map fun v' => { d with exchange := Function.update d.exchange n (some v') }

def deliver (d : Desk K) (n : Nat) : Option (Desk K) :=
  (d.exchange n).bind fun v =>
    v.outbox.head?.map fun o =>
      { d with
        engine := d.engine.handleOrderTradeUpdate o
        exchange := Function.update d.exchange n (some v.pop) }

/-- A refused order never reaches the book: no event of the stream tells of it. -/
def refuse (d : Desk K) (n : Nat) (nowNs : Int) : Option (Desk K) :=
  (d.exchange n).bind fun v =>
    if v.status = .Unknown then
      some { d with
        engine := d.engine.applyUpdate (orderKey n) (ExecutionEngine.rejectArgs nowNs)
        exchange := Function.update d.exchange n (some { v with status := .Rejected }) }
    else none

end Desk

namespace World

variable [Field K]

def init (maxOpenOrders : Nat) (orderId : Nat → Int) : World K where
  desk :=
    { engine := ExecutionEngine.init maxOpenOrders
      exchange := fun _ => none
      orderId := orderId
      cancels := [] }
  pairs := []

variable [LinearOrder K]

def step (w : World K) : EngineEvent K → Option (World K)
  | .signal leg1 leg2 t =>
    let (d, p) := w.desk.onSignal leg1 leg2 t
    some { desk := d, pairs := w.pairs ++ p.toList }
  | .resume i r t =>
    (w.pairs[i]?).bind fun p =>
      (w.desk.resume p r t).map fun (d, pc) =>
        { desk := d, pairs := w.pairs.set i { p with pc := pc } }
  | .act n a tMs => (w.desk.act n a tMs).map fun d => { w with desk := d }
  | .deliver n => (w.desk.deliver n).map fun d => { w with desk := d }
  | .refuse n nowNs => (w.desk.refuse n nowNs).map fun d => { w with desk := d }
  | .sweep maxAge steadyNs => some { w with desk := w.desk.sweep maxAge steadyNs }
  | .forceHalt =>
    some { w with desk := { w.desk with engine := w.desk.engine.forceHalt } }
  | .resetHalt =>
    some { w with desk := { w.desk with engine := w.desk.engine.resetHalt } }
  | .checkDrawdown x limit =>
    some { w with desk := { w.desk with engine := w.desk.engine.checkDrawdown x limit } }

end World
end HoloMarket
