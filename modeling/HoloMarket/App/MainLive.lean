import HoloMarket.Lib.Machine
import HoloMarket.Net.SignalRouter

/-!
# The live main loop

`main` of `main_live.cpp` from the poll of `last_signal` to the return of
`route`, against the pipeline thread.  An event is the start of a tick, the next
step of the pipeline thread or the next step of the main loop.
-/

namespace HoloMarket

open SharedCells

variable {K : Type}

/-- One call of `route`: the index that `last_signal` loaded and the record it
returned, the size that `last_topology` returned, and the elements read so far. -/
structure Routing (K : Type) where
  writeIdx : Nat
  sig : SignalRecord K
  nEdges : Int
  seen : List (HostAccess K)

/-- The three spans have the size of the topology. -/
def Routing.sizes (r : Routing K) : SpanSizes :=
  ⟨r.nEdges.toNat, r.nEdges.toNat, r.nEdges.toNat⟩

/-- Where the loop stands: before the load of the index in `last_signal`, in the
copy of the slot, in `last_topology`, or in `route`. -/
inductive MainPc (K : Type) where
  | sleep
  | lastSignal (writeIdx : Nat) (p : Reads (HostCell.Val K) (SignalRecord K))
  | lastTopology (writeIdx : Nat) (sig : SignalRecord K) (p : Reads (HostCell.Val K) Int)
  | route (r : Routing K) (p : Reads (HostCell.Val K) (List (RoutedEdge K)))

structure MainLoop (K : Type) where
  lastSigTs : Nat
  pc : MainPc K
  routed : List (Routing K × List (RoutedEdge K))

def MainPc.routings : MainPc K → List (Routing K)
  | .sleep => []
  | .lastSignal _ _ => []
  | .lastTopology _ _ _ => []
  | .route r _ => [r]

/-- The calls of `route` that have returned, and the one under way. -/
def MainLoop.routings (main : MainLoop K) : List (Routing K) :=
  main.routed.map Prod.fst ++ main.pc.routings

section
variable [Zero K] [Neg K] [LT K] [DecidableLT K]

def MainLoop.step (activeThreshold : K) (m : HostMemory K) (main : MainLoop K) : MainLoop K :=
  match main.pc with
  | .sleep =>
    let writeIdx := m .signalWriteIdx
    { main with pc := .lastSignal writeIdx (readSlot (readIdx writeIdx)) }
  | .lastSignal writeIdx (.read c k) => { main with pc := .lastSignal writeIdx (k (m c)) }
  | .lastSignal writeIdx (.done sig) =>
    if sig.timestampNs ≠ main.lastSigTs ∧ sig.timestampNs ≠ 0 then
      { main with
        lastSigTs := sig.timestampNs
        pc := .lastTopology writeIdx sig lastTopology }
    else { main with pc := .sleep }
  | .lastTopology writeIdx sig (.read c k) =>
    { main with pc := .lastTopology writeIdx sig (k (m c)) }
  | .lastTopology writeIdx sig (.done nEdges) =>
    if 0 < nEdges then
      let r : Routing K := ⟨writeIdx, sig, nEdges, []⟩
      { main with pc := .route r (SignalRouter.route activeThreshold sig r.sizes) }
    else { main with pc := .sleep }
  | .route r (.read c k) =>
    { main with pc := .route { r with seen := ⟨c, m c⟩ :: r.seen } (k (m c)) }
  | .route r (.done edges) => { main with pc := .sleep, routed := main.routed ++ [(r, edges)] }

end

/-- The two threads, and the ticks whose records are published, oldest first. -/
structure Live (K : Type) where
  mem : HostMemory K
  pipeline : RecordPc K
  published : List (Tick K)
  main : MainLoop K

inductive LiveEvent (K : Type) where
  | tick (t : Tick K)
  | pipeline (n : Nat)
  | main

namespace Live

def init [Zero K] (edgeSrc edgeDst : Nat → Int) : Live K where
  mem := .init edgeSrc edgeDst
  pipeline := .idle
  published := []
  main := ⟨0, .sleep, []⟩

def step [Zero K] [Add K] [Neg K] [Div K] [IntCast K] [LT K] [DecidableLT K] (activeThreshold : K)
    (s : Live K) : LiveEvent K → Option (Live K)
  | .tick t =>
    match s.pipeline with
    | .idle => some { s with pipeline := .runOnce t }
    | _ => none
  | .pipeline n =>
    (s.pipeline.step s.mem n).map fun (m, pc, ticks) =>
      { s with mem := m, pipeline := pc, published := s.published ++ ticks }
  | .main => some { s with main := s.main.step activeThreshold s.mem }

end Live
end HoloMarket
