import HoloMarket.Core.LobCore
import HoloMarket.Lib.RowScan

/-!
# The CSV replay parser

`csv_replay.hpp`: the pointer-advancing helpers and the row loop of `run`.  A
pointer into the mapped file is the text from it to the end of the file, so
that `p < end` is a text that is not empty.  The arithmetic of prices is a
parameter, used with single precision by the program and with exact numbers in
examples.
-/

namespace HoloMarket

namespace Ascii

def newline : UInt8 := 10
def carriageReturn : UInt8 := 13
def space : UInt8 := 32
def comma : UInt8 := 44
def minus : UInt8 := 45
def dot : UInt8 := 46
def zero : UInt8 := 48

end Ascii

namespace Csv

/-- `static_cast<unsigned>(*p - '0') < 10U`. -/
def isDigit (b : UInt8) : Bool := b - Ascii.zero < 10

/-- The loops `while (p < end && digit) ...` of the three number parsers. -/
def digitLoop {S : Type*} (push : S → UInt8 → S) : S → List UInt8 → S × List UInt8
  | out, [] => (out, [])
  | out, b :: p => if isDigit b then digitLoop push (push out (b - Ascii.zero)) p else (out, b :: p)

def parseU64 (p : List UInt8) : UInt64 × List UInt8 :=
  digitLoop (fun out d => out * 10 + d.toUInt64) 0 p

def parseU32 (p : List UInt8) : UInt32 × List UInt8 :=
  digitLoop (fun out d => out * 10 + d.toUInt32) 0 p

section Float

variable {K : Type*} [NatCast K] [Add K] [Mul K] [OfScientific K]

/-- The fraction after the dot: the digits weighted by `frac`. -/
def parseFraction (out : K) (p : List UInt8) : K × List UInt8 :=
  let r := digitLoop (fun (s : K × K) d => (s.1 + (d.toNat : K) * s.2, s.2 * 0.1)) (out, 0.1) p
  (r.1.1, r.2)

/-- What follows the whole part: nothing unless the next byte is a dot. -/
def parsePoint (out : K) : List UInt8 → K × List UInt8
  | [] => (out, [])
  | b :: p => if b = Ascii.dot then parseFraction out p else (out, b :: p)

def parseFloat (p : List UInt8) : K × List UInt8 :=
  let r := digitLoop (fun (out : K) d => out * ((10 : Nat) : K) + (d.toNat : K)) ((0 : Nat) : K) p
  parsePoint r.1 r.2

end Float

/-- Past the next comma of the file, or to its end. -/
def skipComma : List UInt8 → List UInt8
  | [] => []
  | b :: p => if b = Ascii.comma then p else skipComma p

/-- Past the next newline of the file, or to its end. -/
def skipLine : List UInt8 → List UInt8
  | [] => []
  | b :: p => if b = Ascii.newline then p else skipLine p

def isHeader : List UInt8 → Bool
  | [] => true
  | b :: p =>
    if b = Ascii.space ∨ b = Ascii.carriageReturn then isHeader p
    else b == Ascii.newline || (b != Ascii.minus && !isDigit b)

/-- What one turn of the row loop does. -/
inductive Outcome (K : Type*) where
  | header
  | parseError
  | quote (bid ask : LobUpdate K)
deriving DecidableEq, Repr

/-- The updates a turn pushes, in order. -/
def Outcome.updates {K : Type*} : Outcome K → List (LobUpdate K)
  | .quote bid ask => [bid, ask]
  | _ => []

section Run

variable {K : Type*} [NatCast K] [Add K] [Mul K] [OfScientific K] [BEq K]

/-- The fields of a row as they were read. -/
structure Fields (K : Type*) where
  tsNs : UInt64
  instrId : UInt32
  bidPrice : K
  bidQty : K
  askPrice : K
  askQty : K
deriving DecidableEq, Repr

/-- The six fields of a row, and the text after the last. -/
def parseFields (p : List UInt8) : Fields K × List UInt8 :=
  let (tsNs, p) := parseU64 p
  let (instrId, p) := parseU32 (skipComma p)
  let (bidPrice, p) := parseFloat (skipComma p)
  let (bidQty, p) := parseFloat (skipComma p)
  let (askPrice, p) := parseFloat (skipComma p)
  let (askQty, p) := parseFloat (skipComma p)
  (⟨tsNs, instrId, bidPrice, bidQty, askPrice, askQty⟩, p)

/-- A price of zero or an instrument out of range refuses the row. -/
def Fields.outcome (f : Fields K) : Outcome K :=
  if f.bidPrice == ((0 : Nat) : K) || f.askPrice == ((0 : Nat) : K) ||
      decide (kMaxInstruments ≤ f.instrId.toNat) then
    .parseError
  else
    .quote
      { timestampNs := f.tsNs, instrumentId := f.instrId, depthLevel := 0, side := .bid
        price := f.bidPrice, quantity := f.bidQty }
      { timestampNs := f.tsNs, instrumentId := f.instrId, depthLevel := 0, side := .ask
        price := f.askPrice, quantity := f.askQty }

/-- One turn of the row loop, and the text it leaves. -/
def csvRow (p : List UInt8) : Outcome K × List UInt8 :=
  if isHeader p then (.header, skipLine p)
  else
    let (fields, p) := parseFields (K := K) p
    (fields.outcome, skipLine p)

/-- The turns of the row loop over a file, each with the text it consumed. -/
def rows (file : List UInt8) : List (List UInt8 × Outcome K) :=
  RowScan.scan csvRow file

/-- The updates that `run` pushes for a file, in order. -/
def pushes (file : List UInt8) : List (LobUpdate K) :=
  (rows file).flatMap fun row => row.2.updates

/-- The turn is counted in `metrics_.parse_errors`. -/
def Outcome.isParseError : Outcome K → Bool
  | .parseError => true
  | _ => false

end Run
end Csv
end HoloMarket
