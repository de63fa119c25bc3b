import Mathlib.Data.List.TakeWhile
import HoloMarket.Lib.Machine
import HoloMarket.Net.OmsRefinement

/-!
# BinanceGateway: the order-entry connection

The gateway of `binance_gateway.hpp` as a machine.  A request takes a message id,
is tracked in `pending_` and posted to the executor; the posted push appends it
to `queue_`, which is written one frame at a time and survives a reconnect; an
ack is matched to its request through `pending_`.

A frame is the record of what its JSON text says.  Message ids are natural
numbers, that is the 64-bit counter does not wrap.
-/

namespace HoloMarket

variable {F : Type*}

/-- The arguments of `build_order_msg`. -/
structure OrderRequest (F : Type*) where
  cid : String
  sym : String
  side : Side
  type : String
  qty : F
  price : F
  tif : String
deriving DecidableEq, Repr

inductive Request (F : Type*) where
  | place (o : OrderRequest F)
  | cancel (sym cid : String)
deriving DecidableEq, Repr

structure Frame (F : Type*) where
  id : Nat
  request : Request F
deriving DecidableEq, Repr

/-- Where `run_with_backoff` stands: waiting on its timer, inside `run()` before
the handshake is done, or in the read loop of `run()`. -/
inductive Phase where
  | backoff
  | connecting
  | reading
deriving DecidableEq, Repr

structure BinanceGateway (F : Type*) where
  oms : OMSCore F
  msgId : Nat
  pending : AList fun _ : Nat => String
  /-- Pushes handed to `asio::post` that have not run. -/
  posted : List (Frame F)
  queue : List (Frame F)
  connected : Bool
  writing : Bool
  phase : Phase
  /-- Writes whose completion handler has not run. -/
  outstanding : Nat
  /-- The frames written on the current connection. -/
  wire : List (Frame F)

/-- `std::from_chars` on an unsigned number: the longest prefix of digits. -/
def fromChars (s : String) : Option Nat :=
  match s.toList.takeWhile Char.isDigit with
  | [] => none
  | ds => some (Nat.ofDigitChars 10 ds 0)

theorem fromChars_toString (n : Nat) : fromChars (toString n) = some n := by
  have hl : (toString n).toList = Nat.toDigits 10 n := String.toList_ofList
  have hall : (Nat.toDigits 10 n).takeWhile Char.isDigit = Nat.toDigits 10 n :=
    List.takeWhile_eq_self_iff.mpr fun c hc =>
      Nat.isDigit_of_mem_toDigits (by decide) (by decide) hc
  unfold fromChars
  rw [hl, hall]
  have hval : Nat.ofDigitChars 10 (Nat.toDigits 10 n) 0 = n := Nat.ofDigitChars_ten_toDigits
  cases hd : Nat.toDigits 10 n with
  | nil => exact absurd hd Nat.toDigits_ne_nil
  | cons d ds =>
    rw [hd] at hval
    exact congrArg some hval

namespace BinanceGateway

def init (oms : OMSCore F) : BinanceGateway F where
  oms := oms
  msgId := 0
  pending := ∅
  posted := []
  queue := []
  connected := false
  writing := false
  phase := .backoff
  outstanding := 0
  wire := []

/-- `pending_.emplace`: an id that is there keeps its entry. -/
def trackPending (g : BinanceGateway F) (id : Nat) (cid : String) : BinanceGateway F :=
  match g.pending.lookup id with
  | some _ => g
  | none => { g with pending := g.pending.insert id cid }

def sendMsg (g : BinanceGateway F) (f : Frame F) : BinanceGateway F :=
  { g with posted := g.posted ++ [f] }

/-- A request to place an order.  Signing happens after the request is tracked,
and when it throws nothing is posted. -/
def sendOrder (g : BinanceGateway F) (o : OrderRequest F) (signed : Bool) :
    BinanceGateway F :=
  let id := g.msgId + 1
  let g := { g with msgId := id }.trackPending id o.cid
  if signed then g.sendMsg ⟨id, .place o⟩ else g

def limitPostOnly (cid sym : String) (side : Side) (price qty : F) : OrderRequest F :=
  { cid, sym, side, type := "LIMIT", qty, price, tif := "GTX" }

def market [Zero F] (cid sym : String) (side : Side) (qty : F) : OrderRequest F :=
  { cid, sym, side, type := "MARKET", qty, price := 0, tif := "" }

def cancelOrder (g : BinanceGateway F) (sym cid : String) (signed : Bool) :
    BinanceGateway F :=
  let id := g.msgId + 1
  let g := { g with msgId := id }
  if signed then g.sendMsg ⟨id, .cancel sym cid⟩ else g

def doWrite (g : BinanceGateway F) : BinanceGateway F :=
  match g.queue with
  | [] => { g with writing := false }
  | f :: _ =>
    if g.connected then
      { g with writing := true, outstanding := g.outstanding + 1, wire := g.wire ++ [f] }
    else { g with writing := false }

/-- The continuation of `send_msg` runs. -/
def runPosted (g : BinanceGateway F) : Option (BinanceGateway F) :=
  match g.posted with
  | [] => none
  | f :: rest =>
    let g := { g with posted := rest, queue := g.queue ++ [f] }
    some (if g.connected && !g.writing then g.doWrite else g)

/-- The completion handler of a write runs. -/
def writeDone (g : BinanceGateway F) (ok : Bool) : Option (BinanceGateway F) :=
  if g.outstanding = 0 then none
  else
    let g := { g with outstanding := g.outstanding - 1 }
    some (if ok then { g with queue := g.queue.tail }.doWrite
      else { g with writing := false, connected := false })

def startRun (g : BinanceGateway F) : Option (BinanceGateway F) :=
  if g.phase = .backoff then some { g with phase := .connecting, wire := [] } else none

def handshakeDone (g : BinanceGateway F) : Option (BinanceGateway F) :=
  if g.phase = .connecting then
    let g := { g with phase := .reading, connected := true }
    some (if g.queue.isEmpty then g else g.doWrite)
  else none

/-- `run()` ends, which it does only by throwing. -/
def runThrows (g : BinanceGateway F) : Option (BinanceGateway F) :=
  if g.phase = .backoff then none
  else some { g with phase := .backoff, connected := false, pending := ∅ }

section
variable [Zero F] [Add F] [Sub F] [Mul F] [Div F] [LT F] [DecidableLT F]

def handleAck (g : BinanceGateway F) (id : Option String) (status : Option Int) (nowNs : Int) :
    BinanceGateway F :=
  match id, status with
  | some idStr, some status =>
    match fromChars idStr with
    | none => g
    | some id =>
      match g.pending.lookup id with
      | none => g
      | some cid =>
        let g := { g with pending := g.pending.erase id }
        if status ≠ 200 then
          { g with oms := g.oms.updated (fnv1a64 cid) .Rejected 0 0 0 nowNs 0 }
        else g
  | _, _ => g

inductive Event (F : Type*) where
  | sendOrder (o : OrderRequest F) (signed : Bool)
  | cancelOrder (sym cid : String) (signed : Bool)
  | runPosted
  | writeDone (ok : Bool)
  | startRun
  | handshakeDone
  | runThrows
  | ack (id : Option String) (status : Option Int) (nowNs : Int)
  | oms (call : OmsCall F)

def step (g : BinanceGateway F) : Event F → Option (BinanceGateway F)
  | .sendOrder o signed => some (g.sendOrder o signed)
  | .cancelOrder sym cid signed => some (g.cancelOrder sym cid signed)
  | .runPosted => g.runPosted
  | .writeDone ok => g.writeDone ok
  | .startRun => g.startRun
  | .handshakeDone => g.handshakeDone
  | .runThrows => g.runThrows
  | .ack id status nowNs =>
    if g.phase = .reading then some (g.handleAck id status nowNs) else none
  | .oms call => some { g with oms := (g.oms.call call).1 }

end
end BinanceGateway
end HoloMarket
