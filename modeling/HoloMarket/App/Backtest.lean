import HoloMarket.Core.LockfreeRingBuffer
import HoloMarket.Lib.Machine
import HoloMarket.Net.RowIsolation

/-!
# The backtest

`main_backtest.cpp` with the thread of `CsvReplayHandler::run`: the replay
parses rows and spins until each update is in the ring, the consumer loop pops,
applies and calls `process_signal` after every full batch.  An event says which
of the two threads takes its next step, so that a list of events is an
interleaving.
-/

namespace HoloMarket

variable {K : Type*} [NatCast K] [Add K] [Mul K] [OfScientific K] [BEq K]

/-! ## The replay thread -/

/-- Where `run` stands: at the head of the row loop, in the spin on `try_push`,
or past the loop. -/
inductive ReplayPc where
  | row
  | push (pc : PushPc)
  | finish
  | done
deriving DecidableEq, Repr

/-- The text that is left, and the updates of the current row still to push. -/
structure Replay (K : Type*) where
  p : List UInt8
  pending : List (LobUpdate K)
  pc : ReplayPc

/-- Where the thread goes with `pending` still to push. -/
def ReplayPc.next : List (LobUpdate K) → ReplayPc
  | [] => .row
  | _ :: _ => .push .loadHead

/-- One step of `run`: the ring, `metrics_.finished` and the thread. -/
def Replay.step (ring : SpscRing (LobUpdate K)) (finished : Bool) (replay : Replay K) :
    Option (SpscRing (LobUpdate K) × Bool × Replay K) :=
  match replay.pc with
  | .row =>
    match replay.p with
    | [] => some (ring, finished, { replay with pc := .finish })
    | b :: p =>
      let (outcome, rest) := Csv.csvRow (K := K) (b :: p)
      some (ring, finished, ⟨rest, outcome.updates, .next outcome.updates⟩)
  | .push pc =>
    match replay.pending with
    | [] => none
    | item :: pending =>
      match ring.pushStep item pc with
      | (ring, .inl pc) => some (ring, finished, { replay with pc := .push pc })
      | (ring, .inr false) => some (ring, finished, { replay with pc := .push .loadHead })
      | (ring, .inr true) => some (ring, finished, ⟨replay.p, pending, .next pending⟩)
  | .finish => some (ring, true, { replay with pc := .done })
  | .done => none

/-! ## The consumer loop -/

/-- Where `main` stands: reading `finished()`, the two loads of `empty()`, in
`try_pop`, applying the update, in `process_signal`, or past the loop. -/
inductive ConsumerPc (K : Type*) where
  | finished
  | emptyTail
  | emptyHead (tail : Nat)
  | pop (pc : PopPc (LobUpdate K))
  | apply (u : LobUpdate K)
  | processSignal
  | flush
  | processLast
  | done
deriving DecidableEq

/-- The book, the local count, and what has been done so far: the updates
applied and, for each call of `process_signal`, the count and the book it saw. -/
structure Consumer (K : Type*) where
  lobSoa : LobSoA K
  localCount : Nat
  applied : List (LobUpdate K)
  calls : List (Nat × LobSoA K)
  pc : ConsumerPc K

/-- The call of `process_signal`, which only reads the book. -/
def Consumer.processSignal (c : Consumer K) (pc : ConsumerPc K) : Consumer K :=
  { c with calls := c.calls ++ [(c.localCount, c.lobSoa)], pc := pc }

/-- One step of the consumer loop with batches of `kGpuBatch`. -/
def Consumer.step (kGpuBatch : Nat) (ring : SpscRing (LobUpdate K)) (finished : Bool)
    (c : Consumer K) : Option (SpscRing (LobUpdate K) × Consumer K) :=
  match c.pc with
  | .finished =>
    some (ring, { c with pc := if finished then .emptyTail else .pop .loadTail })
  | .emptyTail => some (ring, { c with pc := .emptyHead ring.tail })
  | .emptyHead tail =>
    some (ring, { c with pc := if tail = ring.head then .flush else .pop .loadTail })
  | .pop pc =>
    match ring.popStep pc with
    | (ring, .inl pc) => some (ring, { c with pc := .pop pc })
    | (ring, .inr none) => some (ring, { c with pc := .finished })
    | (ring, .inr (some u)) => some (ring, { c with pc := .apply u })
  | .apply u =>
    some (ring,
      { c with
        lobSoa := c.lobSoa.apply u
        localCount := c.localCount + 1
        applied := c.applied ++ [u]
        pc := if (c.localCount + 1) % kGpuBatch = 0 then .processSignal else .finished })
  | .processSignal => some (ring, c.processSignal .finished)
  | .flush =>
    some (ring,
      { c with pc := if c.localCount % kGpuBatch ≠ 0 then .processLast else .done })
  | .processLast => some (ring, c.processSignal .done)
  | .done => none

/-! ## Both -/

structure Backtest (K : Type*) where
  ring : SpscRing (LobUpdate K)
  finished : Bool
  replay : Replay K
  consumer : Consumer K

inductive BacktestEvent where
  | replay
  | consumer
deriving DecidableEq, Repr

namespace Backtest

/-- A fresh ring, a book and a file. -/
def init (capacity : Nat) (slots : Nat → LobUpdate K) (lobSoa : LobSoA K) (file : List UInt8) :
    Backtest K where
  ring := .init capacity slots
  finished := false
  replay := ⟨file, [], .row⟩
  consumer := ⟨lobSoa, 0, [], [], .finished⟩

def step (kGpuBatch : Nat) (s : Backtest K) : BacktestEvent → Option (Backtest K)
  | .replay =>
    (s.replay.step s.ring s.finished).map fun r => ⟨r.1, r.2.1, r.2.2, s.consumer⟩
  | .consumer =>
    (s.consumer.step kGpuBatch s.ring s.finished).map fun r => ⟨r.1, s.finished, s.replay, r.2⟩

end Backtest
end HoloMarket
