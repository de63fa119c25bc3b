import HoloMarket.Lib.ExtFloat
import HoloMarket.Net.RouterGreedy

/-!
# The router and values that are not finite

`route` over floats with a NaN and infinities.  Its tests skip what is too weak, which a
NaN never is, and an infinity is stronger than every finite flow.
-/

namespace HoloMarket
namespace SignalRouter

variable {K : Type} [AddCommGroup K] [LinearOrder K] {m : HostMemory (ExtFloat K)}
  {activeThreshold : ExtFloat K} {sig : SignalRecord (ExtFloat K)} {sizes : SpanSizes}

/-- Only finite flows of at least the threshold are routed, and none without an action
of at least the threshold. -/
structure OnlyFiniteStrong (activeThreshold : ExtFloat K) (sig : SignalRecord (ExtFloat K))
    (out : List (RoutedEdge (ExtFloat K))) : Prop where
  flows : ∀ r ∈ out, ∃ x : K, r.harmonicFlow = .fin x ∧
    (ExtFloat.fin |x|).Ge activeThreshold
  suppressed : ¬ sig.yangMillsAction.Ge activeThreshold → out = []

/-- The greedy choice among the candidates of finite flow. -/
def finitePicks (m : HostMemory (ExtFloat K)) (activeThreshold : ExtFloat K)
    (sizes : SpanSizes) : List Nat :=
  scanApart (Shares m) [] (ranked (fun e => (flowAt m e).magnitude)
    ((candidates m activeThreshold sizes).filter fun e => (flowAt m e).isFinite))

/-- No candidate is infinite, and for each slot the first candidate that is apart from
the earlier picks is not a NaN. -/
structure FiniteSlots (m : HostMemory (ExtFloat K)) (activeThreshold : ExtFloat K)
    (sizes : SpanSizes) : Prop where
  noInf : ∀ e ∈ candidates m activeThreshold sizes, ¬ (flowAt m e).isInf
  noNan : ∀ k < kSignalRouterTopK,
    ∀ e ∈ ((candidates m activeThreshold sizes).filter fun e =>
      Apart (Shares m) ((finitePicks m activeThreshold sizes).take k) e).head?,
      ¬ (flowAt m e).isNan

/-! ## Strengths -/

omit [AddCommGroup K] [LinearOrder K] in
theorem strength_nan [Zero K] [Neg K] [LT K] [DecidableLT K] {e : Nat}
    (h : flowAt m e = .nan) : strength m e = .nan := by
  unfold strength
  rw [h]
  split_ifs <;> rfl

omit [AddCommGroup K] [LinearOrder K] in
theorem strength_inf [Zero K] [Neg K] [LT K] [DecidableLT K] {e : Nat} {negative : Bool}
    (h : flowAt m e = .inf negative) : strength m e = .inf false := by
  unfold strength
  rw [h]
  cases negative with
  | false => exact if_neg Bool.noConfusion
  | true => exact if_pos (show true = true from rfl)

section Strength

variable [IsOrderedAddMonoid K]

theorem strength_fin {e : Nat} {x : K} (h : flowAt m e = .fin x) : strength m e = .fin |x| := by
  unfold strength
  rw [h]
  by_cases hneg : x < 0
  · rw [if_pos (show ExtFloat.fin x < 0 from hneg), abs_of_neg hneg]
    rfl
  · rw [if_neg (show ¬ ExtFloat.fin x < 0 from hneg), abs_of_nonneg (not_lt.mp hneg)]

theorem isNan_strength (e : Nat) : (strength m e).isNan = (flowAt m e).isNan := by
  cases hf : flowAt m e with
  | nan => rw [strength_nan hf]
  | inf _ =>
    rw [strength_inf hf]
    rfl
  | fin x =>
    rw [strength_fin hf]
    rfl

theorem isFinite_strength (e : Nat) : (strength m e).isFinite = (flowAt m e).isFinite := by
  cases hf : flowAt m e with
  | nan => rw [strength_nan hf]
  | inf _ =>
    rw [strength_inf hf]
    rfl
  | fin x =>
    rw [strength_fin hf]
    rfl

/-- Without infinities a strength is a NaN or the magnitude. -/
theorem strength_of_not_isInf {e : Nat} (h : ¬ (flowAt m e).isInf) :
    (strength m e).isNan ∨ strength m e = .fin (flowAt m e).magnitude := by
  cases hf : flowAt m e with
  | nan =>
    rw [strength_nan hf]
    exact .inl rfl
  | inf _ =>
    rw [hf] at h
    exact absurd rfl h
  | fin x => exact .inr (strength_fin hf)

end Strength

/-! ## Slots -/

/-- The edges that `route` writes when the action passes. -/
def chosen (m : HostMemory (ExtFloat K)) (activeThreshold : ExtFloat K) (sizes : SpanSizes) :
    List Nat :=
  fillApart (Shares m) (runningMax (strength m)) (candidates m activeThreshold sizes)
    kSignalRouterTopK []

/-- The first slot goes to the maximum over all candidates. -/
theorem chosen_eq_cons {e w : Nat} {es : List Nat}
    (h : candidates m activeThreshold sizes = e :: es)
    (hw : es.foldl (better (strength m)) (some e) = some w) :
    w ∈ chosen m activeThreshold sizes := by
  have hfree : ((e :: es).filter fun x => Apart (Shares m) [] x) = e :: es :=
    List.filter_eq_self.mpr fun x _ => decide_eq_true fun k hk => absurd hk List.not_mem_nil
  have hmax : runningMax (strength m) (e :: es) = some w := hw
  unfold chosen kSignalRouterTopK
  rw [fillApart, h, hfree, hmax]
  exact List.mem_cons_self

variable [IsOrderedAddMonoid K]

/-- An infinite candidate keeps some slot from a finite flow. -/
theorem not_isInf_of_chosen (h : ∀ e ∈ chosen m activeThreshold sizes, (flowAt m e).isFinite)
    {x : Nat} (hx : x ∈ candidates m activeThreshold sizes) : ¬ (flowAt m x).isInf := by
  intro hinf
  have hkey : strength m x = .inf false := by
    cases hf : flowAt m x with
    | inf negative => exact strength_inf hf
    | nan | fin _ =>
      rw [hf] at hinf
      exact Bool.noConfusion hinf
  cases hc : candidates m activeThreshold sizes with
  | nil =>
    rw [hc] at hx
    exact List.not_mem_nil hx
  | cons e es =>
    by_cases hnan : (strength m e).isNan
    · have hfin := h e (chosen_eq_cons hc (ExtFloat.foldl_better_nan hnan es))
      rw [← isFinite_strength] at hfin
      exact ExtFloat.not_isFinite_of_isNan hnan hfin
    · rw [hc] at hx
      obtain ⟨w, hw, hwinf⟩ := ExtFloat.foldl_better_inf hnan ⟨x, hx, hkey⟩
      have hfin := h w (chosen_eq_cons hc hw)
      rw [← isFinite_strength, hwinf] at hfin
      exact Bool.noConfusion hfin

/-- All slots go to finite flows exactly when `FiniteSlots` holds. -/
theorem forall_isFinite_chosen_iff :
    (∀ e ∈ chosen m activeThreshold sizes, (flowAt m e).isFinite) ↔
      FiniteSlots m activeThreshold sizes := by
  have hiff : (∀ e ∈ candidates m activeThreshold sizes, ¬ (flowAt m e).isInf) →
      ((∀ e ∈ chosen m activeThreshold sizes, (flowAt m e).isFinite) ↔
        ∀ k < kSignalRouterTopK, ∀ e ∈ ((candidates m activeThreshold sizes).filter fun e =>
          Apart (Shares m) ((finitePicks m activeThreshold sizes).take k) e).head?,
          ¬ (flowAt m e).isNan) := by
    intro hinf
    have hasc : ((candidates m activeThreshold sizes).filter fun e =>
        (flowAt m e).isFinite).Pairwise (· < ·) :=
      (List.pairwise_lt_range.filter _).filter _
    have hpicks : fillApart (Shares m) (runningMax fun e => (flowAt m e).magnitude)
        ((candidates m activeThreshold sizes).filter fun e => (strength m e).isFinite)
        kSignalRouterTopK [] = (finitePicks m activeThreshold sizes).take kSignalRouterTopK := by
      simp only [isFinite_strength]
      exact fillApart_eq_scanApart shares_self (runningMax_filter hasc) _ _
    have hslots := ExtFloat.forall_isFinite_fillApart_iff (Shares m)
      (fun e he => strength_of_not_isInf (hinf e he)) kSignalRouterTopK []
    rw [hpicks] at hslots
    simp only [isFinite_strength, isNan_strength, List.append_nil, List.take_take] at hslots
    refine hslots.trans (forall₂_congr fun k hk => ?_)
    rw [min_eq_left hk.le]
  exact ⟨fun h => ⟨fun e he => not_isInf_of_chosen h he,
      (hiff fun e he => not_isInf_of_chosen h he).mp h⟩, fun h => (hiff h.noInf).mpr h.noNan⟩

/-- When only finite and strong flows are routed. -/
theorem route_finite_iff (m : HostMemory (ExtFloat K)) (activeThreshold : ExtFloat K)
    (sig : SignalRecord (ExtFloat K)) (sizes : SpanSizes) :
    OnlyFiniteStrong activeThreshold sig ((route activeThreshold sig sizes).eval m) ↔
      sig.yangMillsAction < activeThreshold ∨ candidates m activeThreshold sizes = [] ∨
        (sig.yangMillsAction.Ge activeThreshold ∧ FiniteSlots m activeThreshold sizes) := by
  rw [eval_route]
  by_cases hweak : sig.yangMillsAction < activeThreshold
  · rw [if_pos hweak]
    refine ⟨fun _ => .inl hweak, fun _ => ⟨fun r hr => absurd hr List.not_mem_nil, fun _ => rfl⟩⟩
  rw [if_neg hweak, or_iff_right hweak]
  have hout : fillApart (Shares m) (runningMax (strength m)) (candidates m activeThreshold sizes)
      kSignalRouterTopK [] = chosen m activeThreshold sizes := rfl
  rw [hout]
  cases hc : candidates m activeThreshold sizes with
  | nil =>
    have hnone : chosen m activeThreshold sizes = [] := List.eq_nil_iff_forall_not_mem.mpr
      fun e he => by
        have hmem := fillApart_subset mem_of_runningMax _ _ e he
        rw [hc] at hmem
        exact List.not_mem_nil hmem
    rw [hnone]
    exact ⟨fun _ => .inl rfl, fun _ => ⟨fun r hr => absurd hr List.not_mem_nil, fun _ => rfl⟩⟩
  | cons e es =>
    rw [or_iff_right (List.cons_ne_nil e es), ← forall_isFinite_chosen_iff]
    constructor
    · intro h
      refine ⟨by_contra fun hge => ?_, fun x hx => ?_⟩
      · have hnone : chosen m activeThreshold sizes = [] :=
          List.map_eq_nil_iff.mp (h.suppressed hge)
        obtain ⟨w, hw⟩ := exists_foldl_better (strength m) e es
        have hmem := chosen_eq_cons hc hw
        rw [hnone] at hmem
        exact List.not_mem_nil hmem
      · obtain ⟨v, hv, -⟩ := h.flows _ (List.mem_map_of_mem hx)
        rw [show flowAt m x = .fin v from hv]
        rfl
    · rintro ⟨hge, hfin⟩
      refine ⟨fun r hr => ?_, fun hn => absurd hge hn⟩
      obtain ⟨x, hx, rfl⟩ := List.mem_map.mp hr
      have hcand : Candidate m activeThreshold sizes x :=
        of_decide_eq_true (List.mem_filter.mp (fillApart_subset mem_of_runningMax _ _ x hx)).2
      have hxfin := hfin x hx
      cases hf : flowAt m x with
      | fin v =>
        refine ⟨v, hf, Bool.noConfusion, hge.2.1, ?_⟩
        rw [← strength_fin hf]
        exact hcand.1
      | nan | inf _ =>
        rw [hf] at hxfin
        exact Bool.noConfusion hxfin

/-- A flow of 20 and then a NaN, between instruments 0 and 1 and instruments 2 and 3. -/
def nanSecond : HostMemory (ExtFloat ℚ) :=
  hostArrays (fun e => [.fin 20].getD e .nan) (fun e => 2 * e) fun e => 2 * e + 1

/-- The same edges with the NaN first. -/
def nanFirst : HostMemory (ExtFloat ℚ) :=
  hostArrays (fun e => [.nan, .fin 20].getD e .nan) (fun e => 2 * e) fun e => 2 * e + 1

/-- A NaN on an edge of its own reaches the slot that the finite flows leave. -/
theorem route_finite_iff_nanSecond :
    OnlyFiniteStrong (.fin 10) (signalOfAction (.fin 20))
        ((route (.fin 10) (signalOfAction (.fin 20)) ⟨2, 2, 2⟩).eval nanSecond) ↔
      (signalOfAction (.fin 20 : ExtFloat ℚ)).yangMillsAction < .fin 10 ∨
        candidates nanSecond (.fin 10) ⟨2, 2, 2⟩ = [] ∨
          ((signalOfAction (.fin 20 : ExtFloat ℚ)).yangMillsAction.Ge (.fin 10) ∧
            FiniteSlots nanSecond (.fin 10) ⟨2, 2, 2⟩) :=
  route_finite_iff nanSecond (.fin 10) (signalOfAction (.fin 20)) ⟨2, 2, 2⟩

/-- The NaN takes the first slot. -/
theorem nan_is_routed :
    ¬ OnlyFiniteStrong (.fin 10) (signalOfAction (.fin 20))
      ((route (.fin 10) (signalOfAction (.fin 20)) ⟨2, 2, 2⟩).eval nanFirst) := by
  intro h
  have hout : ((route (.fin 10) (signalOfAction (.fin 20)) ⟨2, 2, 2⟩).eval nanFirst).map
      RoutedEdge.harmonicFlow = [.nan, .fin 20] := by decide +kernel
  have hmem : ExtFloat.nan ∈ ((route (.fin 10) (signalOfAction (.fin 20)) ⟨2, 2, 2⟩).eval
      nanFirst).map RoutedEdge.harmonicFlow := by
    rw [hout]
    exact List.mem_cons_self
  obtain ⟨r, hr, hnan⟩ := List.mem_map.mp hmem
  obtain ⟨x, hx, -⟩ := h.flows r hr
  cases hnan.symm.trans hx

end SignalRouter
end HoloMarket
