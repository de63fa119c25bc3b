import HoloMarket.Core.LatencyTrace
import HoloMarket.Core.LobCore
import HoloMarket.Net.CsvReplay

/-!
# BinanceFeed: the depth messages of the live feed

`binance_feed.hpp`: the price parser, and how a frame becomes updates of the ring.  The
parse of a frame as JSON is not the feed's, so a frame is the value it parses to.  The
arithmetic of prices is a parameter, as in the replay.
-/

namespace HoloMarket

def kMaxDepth : Nat := 16

namespace Feed

/-! ## Prices -/

/-- `c >= '0' && c <= '9'`. -/
def isDigitChar (c : UInt8) : Bool := decide (Ascii.zero ≤ c) && decide (c ≤ 57)

section Price

variable {K : Type*} [NatCast K] [Add K] [Mul K] [OfScientific K]

/-- The variables of `parse_price`. -/
structure PriceScan (K : Type*) where
  result : K
  dot : Bool
  frac : K

/-- One round of the loop, or `none` where it breaks. -/
def PriceScan.next (s : PriceScan K) (c : UInt8) : Option (PriceScan K) :=
  if isDigitChar c then
    if s.dot then
      some { s with
        result := s.result + ((c - Ascii.zero).toNat : K) * s.frac
        frac := s.frac * 0.1 }
    else some { s with result := s.result * ((10 : Nat) : K) + ((c - Ascii.zero).toNat : K) }
  else if c = Ascii.dot then some { s with dot := true }
  else none

def priceLoop : PriceScan K → List UInt8 → PriceScan K
  | s, [] => s
  | s, c :: sv =>
    match s.next c with
    | some s => priceLoop s sv
    | none => s

def parsePrice (sv : List UInt8) : K := (priceLoop ⟨((0 : Nat) : K), false, 0.1⟩ sv).result

end Price

/-! ## Frames -/

def kFeedNInstruments : Nat := 4

/-- The bytes of a name. -/
def bytes (s : String) : List UInt8 := s.toList.map fun c => c.toNat.toUInt8

def instrumentIdFromStream (s : List UInt8) : UInt32 :=
  if 6 ≤ s.length then
    if s.take 3 = bytes "btc" then 0
    else if s.take 3 = bytes "eth" then 1
    else if s.take 3 = bytes "sol" then 2
    else if s.take 3 = bytes "bnb" then 3
    else 4294967295
  else 4294967295

/-- A parsed value.  Of a number the feed reads nothing. -/
inductive JsonValue where
  | null
  | bool (b : Bool)
  | number
  | string (s : List UInt8)
  | array (values : List JsonValue)
  | object (members : List (String × JsonValue))

/-- What the accessors throw. -/
inductive JsonError where
  | syntaxError
  | notString
  | notArray
  | notObject
deriving DecidableEq, Repr

namespace JsonValue

def asString : JsonValue → Except JsonError (List UInt8)
  | .string s => .ok s
  | _ => .error .notString

def asArray : JsonValue → Except JsonError (List JsonValue)
  | .array values => .ok values
  | _ => .error .notArray

def asObject : JsonValue → Except JsonError (List (String × JsonValue))
  | .object members => .ok members
  | _ => .error .notObject

end JsonValue

/-- `if_contains`. -/
def ifContains (obj : List (String × JsonValue)) (key : String) : Option JsonValue :=
  (obj.find? fun m => decide (m.1 = key)).map Prod.snd

/-- The two sides of a depth message and its instrument. -/
structure Depth where
  instrId : UInt32
  b : JsonValue
  a : JsonValue

/-- The head of `parse_and_enqueue`, up to the counters: `none` where it returns. -/
def readDepth (frame : Except JsonError JsonValue) : Except JsonError (Option Depth) := do
  let jv ← frame
  let obj ← jv.asObject
  match ifContains obj "stream", ifContains obj "data" with
  | some sv, some dv =>
    let streamName ← sv.asString
    let instrId := instrumentIdFromStream streamName
    if kFeedNInstruments ≤ instrId.toNat then return none
    let data ← dv.asObject
    match ifContains data "b", ifContains data "a" with
    | some bv, some av => return some ⟨instrId, bv, av⟩
    | _, _ => return none
  | _, _ => return none

/-- The texts of a level, `none` for an entry too short. -/
def levelTexts (level : JsonValue) :
    Except JsonError (Option (List UInt8 × List UInt8)) := do
  let entry ← level.asArray
  match entry with
  | price :: quantity :: _ =>
    let price ← JsonValue.asString price
    let quantity ← JsonValue.asString quantity
    return some (price, quantity)
  | _ => return none

section Levels

variable {K : Type*} [NatCast K] [Add K] [Mul K] [OfScientific K]

/-- The loop over the levels: the updates offered to the ring, and whether an exception
ended it. -/
def levelUpdates (ts : UInt64) (instrId : UInt32) (side : BookSide) :
    Nat → List JsonValue → List (LobUpdate K) × Bool
  | _, [] => ([], false)
  | lvl, level :: levels =>
    match levelTexts level with
    | .error _ => ([], true)
    | .ok none => levelUpdates ts instrId side (lvl + 1) levels
    | .ok (some (price, quantity)) =>
      let r := levelUpdates ts instrId side (lvl + 1) levels
      ({ timestampNs := ts
         price := parsePrice price
         quantity := parsePrice quantity
         instrumentId := instrId
         depthLevel := lvl.toUInt8
         side := side } :: r.1, r.2)

/-- `push_levels`, called on the array of one side. -/
def pushLevels (ts : UInt64) (instrId : UInt32) (side : BookSide) (levels : JsonValue) :
    List (LobUpdate K) × Bool :=
  match levels.asArray with
  | .error _ => ([], true)
  | .ok levels => levelUpdates ts instrId side 0 (levels.take kMaxDepth)

/-- The bids and, unless they threw, the asks. -/
def Depth.offers (d : Depth) (ts : UInt64) : List (LobUpdate K) × Bool :=
  let bids := pushLevels ts d.instrId .bid d.b
  if bids.2 then bids
  else
    let asks := pushLevels ts d.instrId .ask d.a
    (bids.1 ++ asks.1, asks.2)

/-- The updates that a frame offers to the ring, in order. -/
def offered (frame : Except JsonError JsonValue) (ts : UInt64) : List (LobUpdate K) :=
  match readDepth frame with
  | .ok (some d) => (d.offers ts).1
  | _ => []

end Levels

/-! ## The handler -/

structure FeedMetrics where
  msgsReceived : Nat
  msgsDropped : Nat
  parseErrors : Nat
  perInstrumentMsgs : Nat → Nat

/-- The handler with its ring, and the histogram it records into. -/
structure BinanceFeedHandler (R : Type*) where
  ring : R
  metrics : FeedMetrics
  latency : LatencyHistogram

namespace BinanceFeedHandler

variable {K R : Type*} (tryPush : R → LobUpdate K → Option R)

/-- An update that finds the ring full is dropped. -/
def push (f : BinanceFeedHandler R) (u : LobUpdate K) : BinanceFeedHandler R :=
  match tryPush f.ring u with
  | some ring => { f with ring := ring }
  | none => { f with metrics := { f.metrics with msgsDropped := f.metrics.msgsDropped + 1 } }

def parseError (f : BinanceFeedHandler R) : BinanceFeedHandler R :=
  { f with metrics := { f.metrics with parseErrors := f.metrics.parseErrors + 1 } }

def received (f : BinanceFeedHandler R) (instrId : UInt32) : BinanceFeedHandler R :=
  { f with metrics := { f.metrics with
      msgsReceived := f.metrics.msgsReceived + 1
      perInstrumentMsgs := Function.update f.metrics.perInstrumentMsgs instrId.toNat
        (f.metrics.perInstrumentMsgs instrId.toNat + 1) } }

theorem ring_foldl_push (us : List (LobUpdate K)) (f : BinanceFeedHandler R) :
    (us.foldl (push tryPush) f).ring = us.foldl (fun r u => (tryPush r u).getD r) f.ring := by
  induction us generalizing f with
  | nil => rfl
  | cons u us ih =>
    rw [List.foldl_cons, List.foldl_cons, ih]
    refine congrArg (us.foldl _) ?_
    unfold push
    cases tryPush f.ring u with
    | none => rfl
    | some ring => rfl

variable [NatCast K] [Add K] [Mul K] [OfScientific K]

/-- A frame received at `tRecv`, with the clock at `ts` before the levels and at `now`
after them. -/
def parseAndEnqueue (f : BinanceFeedHandler R) (frame : Except JsonError JsonValue)
    (tRecv ts now : UInt64) : BinanceFeedHandler R :=
  match readDepth frame with
  | .error _ => f.parseError
  | .ok none => f
  | .ok (some d) =>
    let offers := d.offers ts
    let f := offers.1.foldl (push tryPush) (f.received d.instrId)
    if offers.2 then f.parseError
    else { f with latency := f.latency.record .wsRecvToRingPush (now - tRecv).toNat }

/-- The ring takes what the frame offers, as far as it has room. -/
theorem ring_parseAndEnqueue (f : BinanceFeedHandler R) (frame : Except JsonError JsonValue)
    (tRecv ts now : UInt64) : (f.parseAndEnqueue tryPush frame tRecv ts now).ring =
      (offered frame ts).foldl (fun r u => (tryPush r u).getD r) f.ring := by
  unfold parseAndEnqueue offered
  cases readDepth frame with
  | error e => rfl
  | ok d =>
    cases d with
    | none => rfl
    | some d =>
      have hring := ring_foldl_push tryPush (d.offers (K := K) ts).1 (f.received d.instrId)
      dsimp only
      split_ifs
      · exact hring
      · exact hring

end BinanceFeedHandler
end Feed
end HoloMarket
