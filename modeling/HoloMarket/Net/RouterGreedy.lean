import HoloMarket.Lib.GreedyScan
import HoloMarket.Net.SignalRouter
import Mathlib.Algebra.Order.Group.Unbundled.Abs
import Mathlib.Algebra.Order.Ring.Rat

/-!
# What `route` selects

On arrays that nobody changes, `route` fills its slots greedily with edges that share
no instrument.  Over an ordered group that is one scan of the eligible edges by
decreasing strength.
-/

namespace HoloMarket
namespace SignalRouter

open SharedCells

variable {K : Type} (m : HostMemory K)

/-! ## The arrays -/

def flowAt (e : Nat) : K := m (.harmonicOut e)

def srcAt (e : Nat) : Nat := toUint32 (m (.edgeSrc e))

def dstAt (e : Nat) : Nat := toUint32 (m (.edgeDst e))

/-- The edges have an instrument in common. -/
def Shares (k e : Nat) : Prop :=
  (srcAt m e = srcAt m k ∨ srcAt m e = dstAt m k) ∨
    dstAt m e = srcAt m k ∨ dstAt m e = dstAt m k

instance : DecidableRel (Shares m) := fun _ _ => inferInstanceAs (Decidable (_ ∨ _))

/-- What is written for edge `e`. -/
def routed (sig : SignalRecord K) (e : Nat) : RoutedEdge K where
  srcInstrument := srcAt m e
  dstInstrument := dstAt m e
  harmonicFlow := flowAt m e
  yangMillsAction := sig.yangMillsAction
  signalTsNs := sig.timestampNs
  edgeIndex := toUint32 e

/-- No instrument is an endpoint of both edges. -/
def RoutedEdge.Disjoint (a b : RoutedEdge K) : Prop :=
  (a.srcInstrument ≠ b.srcInstrument ∧ a.srcInstrument ≠ b.dstInstrument) ∧
    a.dstInstrument ≠ b.srcInstrument ∧ a.dstInstrument ≠ b.dstInstrument

variable {m} in
theorem disjoint_routed_iff (sig : SignalRecord K) (k e : Nat) :
    RoutedEdge.Disjoint (routed m sig k) (routed m sig e) ↔ ¬ Shares m k e := by
  unfold RoutedEdge.Disjoint routed Shares
  grind

variable {m} in
theorem shares_self (e : Nat) : Shares m e e := .inl (.inl rfl)

theorem eval_takeEdge (sig : SignalRecord K) (e : Nat) :
    (takeEdge sig e).eval m = routed m sig e := rfl

section Loops

variable [Zero K] [Neg K] [LT K] [DecidableLT K]

/-- The magnitude that the loops compare. -/
def strength (e : Nat) : K := if flowAt m e < 0 then -flowAt m e else flowAt m e

/-- Edge `e` passes the threshold test and has both endpoints. -/
def Candidate (activeThreshold : K) (sizes : SpanSizes) (e : Nat) : Prop :=
  ¬ strength m e < activeThreshold ∧ e < sizes.src ∧ e < sizes.dst

instance (activeThreshold : K) (sizes : SpanSizes) :
    DecidablePred (Candidate m activeThreshold sizes) :=
  fun _ => inferInstanceAs (Decidable (_ ∧ _))

def candidates (activeThreshold : K) (sizes : SpanSizes) : List Nat :=
  (List.range sizes.flow).filter fun e => Candidate m activeThreshold sizes e

/-! ## The loops as functions of the arrays -/

variable {m} {activeThreshold : K} {sig : SignalRecord K} {sizes : SpanSizes}
  {used kept : List Nat}

theorem eval_absFlow (e : Nat) : (absFlow e).eval m = strength m e := by
  have hflow : (hCurlFlow e : Reads (HostCell.Val K) K).eval m = flowAt m e := rfl
  unfold absFlow strength
  rw [Reads.eval_bind, hflow]
  by_cases h : flowAt m e < 0
  · rw [if_pos h, if_pos h]
    rfl
  · rw [if_neg h, if_neg h]
    rfl

/-- The winner so far with its strength. -/
def tagged (m : HostMemory K) (best : Option Nat) : Option (K × Nat) :=
  best.map fun b => (strength m b, b)

/-- The endpoints of the edge are not among the instruments in use. -/
def Free (m : HostMemory K) (used : List Nat) (e : Nat) : Prop :=
  ¬ (srcAt m e ∈ used ∨ dstAt m e ∈ used)

instance (used : List Nat) : DecidablePred (Free m used) :=
  fun _ => inferInstanceAs (Decidable (¬ _))

theorem eval_considerEdge (best : Option Nat) (e : Nat) :
    (considerEdge activeThreshold sizes used (tagged m best) e).eval m =
      tagged m (if Candidate m activeThreshold sizes e ∧ Free m used e
        then better (strength m) best e else best) := by
  unfold considerEdge
  rw [Reads.eval_bind, eval_absFlow]
  by_cases hweak : strength m e < activeThreshold
  · rw [if_pos hweak, if_neg fun h => h.1.1 hweak]
    rfl
  by_cases hends : sizes.src ≤ e ∨ sizes.dst ≤ e
  · rw [if_neg hweak, if_pos hends, if_neg]
    · rfl
    · rintro ⟨⟨-, hs, hd⟩, -⟩
      omega
  rw [if_neg hweak, if_neg hends, Reads.eval_bind, Reads.eval_bind]
  have hcand : Candidate m activeThreshold sizes e := ⟨hweak, by omega, by omega⟩
  by_cases hfree : Free m used e
  · rw [if_neg (show ¬ (toUint32 ((hEdgeSrc e).eval m) ∈ used ∨
      toUint32 ((hEdgeDst e).eval m) ∈ used) from hfree),
      if_pos (show Candidate m activeThreshold sizes e ∧ Free m used e from ⟨hcand, hfree⟩)]
    cases best with
    | none => rfl
    | some b =>
      unfold tagged better
      rw [Option.map_some, Option.all_some, Option.all_some]
      split_ifs <;> rfl
  · rw [if_pos (show toUint32 ((hEdgeSrc e).eval m) ∈ used ∨
      toUint32 ((hEdgeDst e).eval m) ∈ used from not_not.mp hfree),
      if_neg fun h => hfree h.2]
    rfl

/-- The inner loop is a running maximum over the candidates that are free. -/
theorem eval_scanEdges (best : Option Nat) (es : List Nat) :
    (scanEdges activeThreshold sizes used (tagged m best) es).eval m =
      tagged m (((es.filter fun e => Candidate m activeThreshold sizes e).filter
        fun e => Free m used e).foldl (better (strength m)) best) := by
  induction es generalizing best with
  | nil => rfl
  | cons e es ih =>
    rw [scanEdges, Reads.eval_bind, eval_considerEdge, ih]
    by_cases hcand : Candidate m activeThreshold sizes e
    · by_cases hfree : Free m used e
      · rw [if_pos ⟨hcand, hfree⟩, List.filter_cons_of_pos (by simpa using hcand),
          List.filter_cons_of_pos (by simpa using hfree), List.foldl_cons]
      · rw [if_neg fun h => hfree h.2, List.filter_cons_of_pos (by simpa using hcand),
          List.filter_cons_of_neg (by simpa using hfree)]
    · rw [if_neg fun h => hcand h.1, List.filter_cons_of_neg (by simpa using hcand)]

/-- `used` lists the endpoints of the edges `kept`. -/
def UsedBy (m : HostMemory K) (used kept : List Nat) : Prop :=
  ∀ x, x ∈ used ↔ ∃ k ∈ kept, x = srcAt m k ∨ x = dstAt m k

omit [Zero K] [Neg K] [LT K] [DecidableLT K] in
theorem UsedBy.free_iff (h : UsedBy m used kept) (e : Nat) :
    Free m used e ↔ Apart (Shares m) kept e := by
  unfold Free Apart Shares
  rw [h, h]
  grind

theorem eval_fillSlots (hused : UsedBy m used kept) (slots : Nat) :
    (fillSlots activeThreshold sig sizes slots used).eval m =
      (fillApart (Shares m) (runningMax (strength m)) (candidates m activeThreshold sizes)
        slots kept).map (routed m sig) := by
  induction slots generalizing used kept with
  | zero => rfl
  | succ slots ih =>
    have hfilter : ((candidates m activeThreshold sizes).filter fun e => Free m used e) =
        (candidates m activeThreshold sizes).filter fun e => Apart (Shares m) kept e :=
      List.filter_congr fun e _ => decide_eq_decide.mpr (hused.free_iff e)
    have hscan : (scanEdges activeThreshold sizes used none (List.range sizes.flow)).eval m =
        tagged m (runningMax (strength m) ((candidates m activeThreshold sizes).filter
          fun e => Apart (Shares m) kept e)) := by
      rw [← hfilter]
      exact eval_scanEdges none (List.range sizes.flow)
    rw [fillSlots, Reads.eval_bind, hscan, fillApart]
    cases runningMax (strength m) ((candidates m activeThreshold sizes).filter
        fun e => Apart (Shares m) kept e) with
    | none => rfl
    | some e =>
      have hnext : UsedBy m (used ++ [srcAt m e, dstAt m e]) (e :: kept) := fun x => by
        rw [List.mem_append, hused]
        simp [or_comm]
      show Reads.eval m (takeEdge sig e >>= fun edge =>
        fillSlots activeThreshold sig sizes slots
          (used ++ [edge.srcInstrument, edge.dstInstrument]) >>= fun rest =>
            pure (edge :: rest)) = _
      rw [Reads.eval_bind, Reads.eval_bind, eval_takeEdge]
      exact congrArg (routed m sig e :: ·) (ih hnext)

theorem eval_route :
    (route activeThreshold sig sizes).eval m =
      if sig.yangMillsAction < activeThreshold then [] else
        (fillApart (Shares m) (runningMax (strength m)) (candidates m activeThreshold sizes)
          kSignalRouterTopK []).map (routed m sig) := by
  unfold route
  split_ifs with hweak hsize
  · rfl
  · have hnone : candidates m activeThreshold sizes = [] := by
      unfold candidates
      rw [hsize]
      rfl
    rw [hnone]
    rfl
  · exact eval_fillSlots (fun x => by simp) kSignalRouterTopK

end Loops

/-! ## Real flows -/

section Order

variable [AddCommGroup K] [LinearOrder K] {m : HostMemory K} {activeThreshold : K}
  {sig : SignalRecord K} {sizes : SpanSizes}

/-- The edges strong enough to be routed, with both endpoints available. -/
def eligible (m : HostMemory K) (activeThreshold : K) (sizes : SpanSizes) : List Nat :=
  (List.range sizes.flow).filter fun e =>
    activeThreshold ≤ |flowAt m e| ∧ e < sizes.src ∧ e < sizes.dst

/-- The eligible edges by decreasing strength, then increasing index. -/
def byStrength (m : HostMemory K) (activeThreshold : K) (sizes : SpanSizes) : List Nat :=
  ranked (fun e => |flowAt m e|) (eligible m activeThreshold sizes)

/-- `out` is the greedy choice of instrument-disjoint edges. -/
structure GreedySelection (m : HostMemory K) (activeThreshold : K) (sig : SignalRecord K)
    (sizes : SpanSizes) (out : List (RoutedEdge K)) : Prop where
  selected : out = ((scanApart (Shares m) [] (byStrength m activeThreshold sizes)).take
    kSignalRouterTopK).map (routed m sig)
  disjoint : out.Pairwise RoutedEdge.Disjoint
  maximal : out.length < kSignalRouterTopK → ∀ e ∈ eligible m activeThreshold sizes,
    ∃ a ∈ out, ¬ RoutedEdge.Disjoint a (routed m sig e)

variable [IsOrderedAddMonoid K]

theorem strength_eq (e : Nat) : strength m e = |flowAt m e| := by
  unfold strength
  split_ifs with h
  · exact (abs_of_neg h).symm
  · exact (abs_of_nonneg (not_lt.mp h)).symm

theorem candidates_eq : candidates m activeThreshold sizes = eligible m activeThreshold sizes := by
  refine List.filter_congr fun e _ => decide_eq_decide.mpr ?_
  unfold Candidate
  rw [strength_eq, not_lt]

/-- `route` is one greedy scan of the eligible edges by strength. -/
theorem route_greedy (m : HostMemory K) (sizes : SpanSizes)
    (haction : activeThreshold ≤ sig.yangMillsAction) :
    GreedySelection m activeThreshold sig sizes ((route activeThreshold sig sizes).eval m) := by
  have hstrength : strength m = fun e => |flowAt m e| := funext strength_eq
  have hasc : (eligible m activeThreshold sizes).Pairwise (· < ·) :=
    List.pairwise_lt_range.filter _
  have hselected : (route activeThreshold sig sizes).eval m =
      ((scanApart (Shares m) [] (byStrength m activeThreshold sizes)).take
        kSignalRouterTopK).map (routed m sig) := by
    rw [eval_route, if_neg haction.not_gt, hstrength, candidates_eq]
    exact congrArg _ (fillApart_eq_scanApart shares_self (runningMax_filter hasc) _ _)
  refine ⟨hselected, ?_, fun hlt e he => ?_⟩
  · rw [hselected, List.pairwise_map]
    refine ((pairwise_scanApart _ _).sublist (List.take_sublist _ _)).imp fun h => ?_
    exact (disjoint_routed_iff sig _ _).mpr h
  · -- the scan itself ended early, and so left nothing behind
    rw [hselected, List.length_map, List.length_take] at hlt
    have hall : (scanApart (Shares m) [] (byStrength m activeThreshold sizes)).length ≤
        kSignalRouterTopK := by omega
    rw [List.take_of_length_le hall] at hselected
    have hmem : e ∈ byStrength m activeThreshold sizes := (ranked_perm _ _).mem_iff.mpr he
    have hleft : ¬ Apart (Shares m) (scanApart (Shares m) []
        (byStrength m activeThreshold sizes) ++ []) e := scanApart_maximal shares_self [] hmem
    rw [List.append_nil] at hleft
    obtain ⟨k, hk, hshare⟩ := not_apart.mp hleft
    refine ⟨routed m sig k, ?_, (disjoint_routed_iff sig k e).not.mpr (not_not.mpr hshare)⟩
    rw [hselected]
    exact List.mem_map_of_mem hk

end Order

/-- Host arrays with the given contents and an empty history. -/
def hostArrays [Zero K] (flow : Nat → K) (edgeSrc edgeDst : Nat → Int) : HostMemory K
  | .harmonicOut e => flow e
  | .edgeSrc e => edgeSrc e
  | .edgeDst e => edgeDst e
  | .signalHistory i f => HostMemory.init edgeSrc edgeDst (.signalHistory i f)
  | .signalWriteIdx => (0 : Nat)

/-- The six edges among four instruments. -/
def completeSrc (e : Nat) : Int := [0, 0, 0, 1, 1, 2].getD e 0

def completeDst (e : Nat) : Int := [1, 2, 3, 2, 3, 3].getD e 0

def signalOfAction [Zero K] (action : K) : SignalRecord K :=
  { SignalRecord.blank with yangMillsAction := action }

/-- The first two edges tie. -/
def tiedFlows (e : Nat) : ℚ := [30, -30, 12, 11, 10, 15].getD e 0

theorem route_greedy_tie :
    (10 : ℚ) ≤ (signalOfAction (20 : ℚ)).yangMillsAction ∧
      GreedySelection (hostArrays tiedFlows completeSrc completeDst) 10 (signalOfAction 20)
        ⟨6, 6, 6⟩ ((route 10 (signalOfAction 20) ⟨6, 6, 6⟩).eval
          (hostArrays tiedFlows completeSrc completeDst)) :=
  ⟨by decide +kernel, route_greedy _ _ (by decide +kernel)⟩

/-- The slots go to the earlier of the tied edges and to the one edge apart from it. -/
example : ((route 10 (signalOfAction 20) ⟨6, 6, 6⟩).eval
    (hostArrays tiedFlows completeSrc completeDst)).map RoutedEdge.edgeIndex = [0, 5] := by
  decide +kernel

end SignalRouter
end HoloMarket
