import Mathlib.Algebra.Ring.Int.Defs
import HoloMarket.Math.CudaPipeline

/-!
# The signal router

`SignalRouter::route` of `signal_router.hpp` over the host arrays of the
pipeline.  Each element that the source reads is one read, as often as the
source reads it, since the arrays are shared with the pipeline thread.
-/

namespace HoloMarket

open SharedCells

def kSignalRouterTopK : Nat := 3

structure RoutedEdge (K : Type) where
  srcInstrument : Nat
  dstInstrument : Nat
  harmonicFlow : K
  yangMillsAction : K
  signalTsNs : Nat
  edgeIndex : Nat
deriving DecidableEq, Repr

/-- `static_cast<std::uint32_t>`. -/
def toUint32 (x : Int) : Nat := (x % 2 ^ 32).toNat

/-- The lengths of the three spans that `route` receives. -/
structure SpanSizes where
  flow : Nat
  src : Nat
  dst : Nat
deriving DecidableEq, Repr

variable {K : Type}

namespace SignalRouter

def hCurlFlow (e : Nat) : Reads (HostCell.Val K) K := .get (HostCell.harmonicOut e)

def hEdgeSrc (e : Nat) : Reads (HostCell.Val K) Int := .get (HostCell.edgeSrc e)

def hEdgeDst (e : Nat) : Reads (HostCell.Val K) Int := .get (HostCell.edgeDst e)

/-- What is written to the output for the edge that won a slot. -/
def takeEdge (sig : SignalRecord K) (e : Nat) : Reads (HostCell.Val K) (RoutedEdge K) := do
  let src ← hEdgeSrc e
  let dst ← hEdgeDst e
  let flow ← hCurlFlow e
  return { srcInstrument := toUint32 src
           dstInstrument := toUint32 dst
           harmonicFlow := flow
           yangMillsAction := sig.yangMillsAction
           signalTsNs := sig.timestampNs
           edgeIndex := toUint32 e }

variable {n e : Nat} {sig : SignalRecord K}

theorem hCurlFlow_within (he : e < n) :
    (hCurlFlow e : Reads (HostCell.Val K) K).Within (HostCell.InArrays n) fun _ => True :=
  Reads.within_get (c := HostCell.harmonicOut e) he

theorem hEdgeSrc_within (he : e < n) :
    (hEdgeSrc e : Reads (HostCell.Val K) Int).Within (HostCell.InArrays n) fun _ => True :=
  Reads.within_get (c := HostCell.edgeSrc e) he

theorem hEdgeDst_within (he : e < n) :
    (hEdgeDst e : Reads (HostCell.Val K) Int).Within (HostCell.InArrays n) fun _ => True :=
  Reads.within_get (c := HostCell.edgeDst e) he

theorem takeEdge_within (he : e < n) :
    (takeEdge sig e).Within (HostCell.InArrays n) fun _ => True :=
  (hEdgeSrc_within he).bind fun _ _ => (hEdgeDst_within he).bind fun _ _ =>
    (hCurlFlow_within he).bind fun _ _ => trivial

/-! ## The loops -/

variable [Zero K] [Neg K] [LT K] [DecidableLT K]

def absFlow (e : Nat) : Reads (HostCell.Val K) K := do
  if (← hCurlFlow e) < 0 then return -(← hCurlFlow e)
  else hCurlFlow e

/-- The body of the inner loop for edge `e`: the strongest edge so far, with its
strength. -/
def considerEdge (activeThreshold : K) (sizes : SpanSizes) (used : List Nat)
    (best : Option (K × Nat)) (e : Nat) : Reads (HostCell.Val K) (Option (K × Nat)) := do
  let af ← absFlow e
  if af < activeThreshold then return best
  else if sizes.src ≤ e ∨ sizes.dst ≤ e then return best
  else
    let src ← hEdgeSrc e
    let dst ← hEdgeDst e
    if toUint32 src ∈ used ∨ toUint32 dst ∈ used then return best
    else if best.all fun b => decide (b.1 < af) then return some (af, e)
    else return best

/-- The inner loop over `es`. -/
def scanEdges (activeThreshold : K) (sizes : SpanSizes) (used : List Nat) :
    Option (K × Nat) → List Nat → Reads (HostCell.Val K) (Option (K × Nat))
  | best, [] => return best
  | best, e :: es => do
    let best ← considerEdge activeThreshold sizes used best e
    scanEdges activeThreshold sizes used best es

/-- The outer loop with `slots` output slots left. -/
def fillSlots (activeThreshold : K) (sig : SignalRecord K) (sizes : SpanSizes) :
    Nat → List Nat → Reads (HostCell.Val K) (List (RoutedEdge K))
  | 0, _ => return []
  | slots + 1, used => do
    match ← scanEdges activeThreshold sizes used none (List.range sizes.flow) with
    | none => return []
    | some (_, e) =>
      let edge ← takeEdge sig e
      let rest ← fillSlots activeThreshold sig sizes slots
        (used ++ [edge.srcInstrument, edge.dstInstrument])
      return edge :: rest

/-- The edges that `route` writes to its buffer. -/
def route (activeThreshold : K) (sig : SignalRecord K) (sizes : SpanSizes) :
    Reads (HostCell.Val K) (List (RoutedEdge K)) :=
  if sig.yangMillsAction < activeThreshold then return []
  else if sizes.flow = 0 then return []
  else fillSlots activeThreshold sig sizes kSignalRouterTopK []

/-! ## The elements that the loops read -/

variable {activeThreshold : K} {used : List Nat}

theorem absFlow_within (he : e < n) :
    (absFlow e : Reads (HostCell.Val K) K).Within (HostCell.InArrays n) fun _ => True := by
  refine (hCurlFlow_within he).bind fun flow _ => ?_
  by_cases hneg : flow < 0
  · rw [if_pos hneg]
    exact (hCurlFlow_within he).bind fun _ _ => trivial
  · rw [if_neg hneg]
    exact hCurlFlow_within he

/-- The winner so far is one of the edges. -/
def Winner (n : Nat) (best : Option (K × Nat)) : Prop := ∀ b ∈ best, b.2 < n

theorem considerEdge_within (he : e < n) {best : Option (K × Nat)} (hbest : Winner n best) :
    (considerEdge activeThreshold ⟨n, n, n⟩ used best e).Within (HostCell.InArrays n)
      (Winner n) := by
  refine (absFlow_within he).bind fun af _ => ?_
  by_cases hweak : af < activeThreshold
  · rw [if_pos hweak]
    exact hbest
  rw [if_neg hweak, if_neg (not_or.mpr ⟨Nat.not_le.mpr he, Nat.not_le.mpr he⟩)]
  refine (hEdgeSrc_within he).bind fun src _ => (hEdgeDst_within he).bind fun dst _ => ?_
  split_ifs
  · exact hbest
  · intro b hb
    obtain rfl := Option.mem_some_iff.mp hb
    exact he
  · exact hbest

theorem scanEdges_within {es : List Nat} (hes : ∀ e ∈ es, e < n) {best : Option (K × Nat)}
    (hbest : Winner n best) :
    (scanEdges activeThreshold ⟨n, n, n⟩ used best es).Within (HostCell.InArrays n) (Winner n) := by
  induction es generalizing best with
  | nil => exact hbest
  | cons e es ih =>
    exact (considerEdge_within (hes e List.mem_cons_self) hbest).bind fun best hbest =>
      ih (fun e he => hes e (List.mem_cons_of_mem _ he)) hbest

theorem fillSlots_within (slots : Nat) :
    (fillSlots activeThreshold sig ⟨n, n, n⟩ slots used).Within (HostCell.InArrays n)
      fun _ => True := by
  induction slots generalizing used with
  | zero => trivial
  | succ slots ih =>
    have hscan : (scanEdges activeThreshold ⟨n, n, n⟩ used none (List.range n)).Within
        (HostCell.InArrays n) (Winner n) :=
      scanEdges_within (fun e he => List.mem_range.mp he) fun _ hb => nomatch hb
    refine hscan.bind fun best hbest => ?_
    cases best with
    | none => trivial
    | some b =>
      exact (takeEdge_within (hbest b rfl)).bind fun edge _ => ih.bind fun _ _ => trivial

/-- The router reads no element that the spans do not have. -/
theorem route_within (activeThreshold : K) (sig : SignalRecord K) (n : Nat) :
    (route activeThreshold sig ⟨n, n, n⟩).Within (HostCell.InArrays n) fun _ => True := by
  rw [route]
  split_ifs
  · trivial
  · trivial
  · exact fillSlots_within _

end SignalRouter
end HoloMarket
