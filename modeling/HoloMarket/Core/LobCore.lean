import Mathlib.Data.Nat.Cast.Defs

/-!
# The order book

`lob_core.hpp`: the structure-of-arrays book, the updates it takes and the
counters it keeps.  `apply` is the composition of its individual stores, which
are named so that another thread can read between two of them.
-/

namespace HoloMarket

def kMaxInstruments : Nat := 512

def kSides : Nat := 2

def kInvalidSeq : UInt32 := 4294967295

inductive BookSide where
  | bid
  | ask
deriving DecidableEq, Repr

/-- The value of the enumerator. -/
def BookSide.toNat : BookSide → Nat
  | .bid => 0
  | .ask => 1

structure LobUpdate (K : Type*) where
  timestampNs : UInt64
  price : K
  quantity : K
  instrumentId : UInt32
  depthLevel : UInt8
  side : BookSide
deriving DecidableEq, Repr

structure LobStats where
  totalUpdates : Nat
  bidUpdates : Nat
  askUpdates : Nat
  droppedUpdates : Nat
deriving DecidableEq, Repr

/-- The book.  The arrays of prices and quantities have a cell for every
instrument and level, `seqNos` one for each side of it. -/
structure LobSoA (K : Type*) where
  nInstruments : Nat
  depth : Nat
  bidPrices : List K
  askPrices : List K
  bidQtys : List K
  askQtys : List K
  seqNos : List UInt32
  lastTsNs : List UInt64
  stats : LobStats
  seq : Nat
deriving DecidableEq, Repr

variable {K : Type*}

namespace LobSoA

/-- The constructor: every price 100, every quantity 0. -/
def init [NatCast K] (nInstruments depth : Nat) : LobSoA K where
  nInstruments := nInstruments
  depth := depth
  bidPrices := List.replicate (nInstruments * depth) ((100 : Nat) : K)
  askPrices := List.replicate (nInstruments * depth) ((100 : Nat) : K)
  bidQtys := List.replicate (nInstruments * depth) ((0 : Nat) : K)
  askQtys := List.replicate (nInstruments * depth) ((0 : Nat) : K)
  seqNos := List.replicate (nInstruments * depth * kSides) kInvalidSeq
  lastTsNs := List.replicate nInstruments 0
  stats := ⟨0, 0, 0, 0⟩
  seq := 0

/-- The stores of one `apply`, in program order. -/
inductive Store where
  | seqBegin
  | price
  | quantity
  | sideUpdates
  | seqNo
  | lastTs
  | seqEnd
  | totalUpdates
deriving DecidableEq, Repr

def Store.all : List Store :=
  [.seqBegin, .price, .quantity, .sideUpdates, .seqNo, .lastTs, .seqEnd, .totalUpdates]

/-- The update addresses a cell of the book. -/
def inRange (lob : LobSoA K) (u : LobUpdate K) : Prop :=
  u.instrumentId.toNat < lob.nInstruments ∧ u.depthLevel.toNat < lob.depth

instance (lob : LobSoA K) (u : LobUpdate K) : Decidable (lob.inRange u) :=
  inferInstanceAs (Decidable (_ ∧ _))

def base (lob : LobSoA K) (u : LobUpdate K) : Nat :=
  u.instrumentId.toNat * lob.depth + u.depthLevel.toNat

def seqBase (lob : LobSoA K) (u : LobUpdate K) : Nat :=
  u.instrumentId.toNat * lob.depth * kSides + u.depthLevel.toNat * kSides + u.side.toNat

/-- One store. -/
def store (u : LobUpdate K) (lob : LobSoA K) : Store → LobSoA K
  | .seqBegin => { lob with seq := lob.seq + 1 }
  | .price =>
    match u.side with
    | .bid => { lob with bidPrices := lob.bidPrices.set (lob.base u) u.price }
    | .ask => { lob with askPrices := lob.askPrices.set (lob.base u) u.price }
  | .quantity =>
    match u.side with
    | .bid => { lob with bidQtys := lob.bidQtys.set (lob.base u) u.quantity }
    | .ask => { lob with askQtys := lob.askQtys.set (lob.base u) u.quantity }
  | .sideUpdates =>
    match u.side with
    | .bid => { lob with stats := { lob.stats with bidUpdates := lob.stats.bidUpdates + 1 } }
    | .ask => { lob with stats := { lob.stats with askUpdates := lob.stats.askUpdates + 1 } }
  | .seqNo =>
    { lob with
      seqNos := lob.seqNos.set (lob.seqBase u) (UInt32.ofNat lob.stats.totalUpdates) }
  | .lastTs =>
    { lob with lastTsNs := lob.lastTsNs.set u.instrumentId.toNat u.timestampNs }
  | .seqEnd => { lob with seq := lob.seq + 1 }
  | .totalUpdates =>
    { lob with stats := { lob.stats with totalUpdates := lob.stats.totalUpdates + 1 } }

/-- An update outside the book is counted and dropped. -/
def drop (lob : LobSoA K) : LobSoA K :=
  { lob with stats := { lob.stats with droppedUpdates := lob.stats.droppedUpdates + 1 } }

def apply (lob : LobSoA K) (u : LobUpdate K) : LobSoA K :=
  if lob.inRange u then Store.all.foldl (store u) lob else lob.drop

end LobSoA

/-! ## The raw arrays -/

/-- The arrays of prices and quantities. -/
inductive BookArray where
  | bidPrices
  | askPrices
  | bidQtys
  | askQtys
deriving DecidableEq, Repr

def BookArray.all : List BookArray := [.bidPrices, .askPrices, .bidQtys, .askQtys]

/-- A copy of them. -/
structure BookArrays (K : Type*) where
  bidPrices : List K
  askPrices : List K
  bidQtys : List K
  askQtys : List K
deriving DecidableEq, Repr

namespace BookArrays

def ofFn (f : BookArray → List K) : BookArrays K :=
  ⟨f .bidPrices, f .askPrices, f .bidQtys, f .askQtys⟩

def get (b : BookArrays K) : BookArray → List K
  | .bidPrices => b.bidPrices
  | .askPrices => b.askPrices
  | .bidQtys => b.bidQtys
  | .askQtys => b.askQtys

def put (b : BookArrays K) (xs : List K) : BookArray → BookArrays K
  | .bidPrices => { b with bidPrices := xs }
  | .askPrices => { b with askPrices := xs }
  | .bidQtys => { b with bidQtys := xs }
  | .askQtys => { b with askQtys := xs }

end BookArrays

/-- The raw arrays of the book. -/
def LobSoA.arrays (lob : LobSoA K) : BookArrays K :=
  ⟨lob.bidPrices, lob.askPrices, lob.bidQtys, lob.askQtys⟩

end HoloMarket
