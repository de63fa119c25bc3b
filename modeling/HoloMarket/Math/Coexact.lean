import Mathlib.Algebra.Order.Field.Rat
import Mathlib.Tactic.Linarith
import HoloMarket.Lib.EdgeFlow
import HoloMarket.Math.Incidence

/-!
# The co-exact signal

`kernel_exact_component` subtracts `B1ᵀ B1` of the flow where a projection onto
the image of `B1ᵀ` is meant, so the signal keeps a divergence unless the node
Laplacian happens to fix the divergence of the flow.
-/

namespace HoloMarket

section
variable {K : Type*} [CommRing K]

/-! ## Flows on a graph -/

/-- Inflow less outflow of the node `v`. -/
def divergence (edges : List (Nat × Nat)) (x : Nat → K) (v : Nat) : K :=
  ∑ e ∈ Finset.range edges.length,
    match edges[e]? with
    | none => 0
    | some f => if v = f.2 then x e else if v = f.1 then -x e else 0

/-- The difference of a node potential along each edge. -/
def gradient (edges : List (Nat × Nat)) (a : Nat → K) (e : Nat) : K :=
  match edges[e]? with
  | none => 0
  | some f => a f.2 - a f.1

/-- The buffer of `B1` as a matrix. -/
def b1Entry (edges : List (Nat × Nat)) (v e : Nat) : K :=
  kernelBuildSignedIncidence edges (v * edges.length + e)

def b2Entry (nEdges : Nat) (triangles : List Triangle) (e t : Nat) : K :=
  kernelBuildTriangleIncidence nEdges triangles (e * triangles.length + t)

theorem b1Entry_eq {edges : List (Nat × Nat)} {e : Nat} {f : Nat × Nat}
    (hf : edges[e]? = some f) (v : Nat) : (b1Entry edges v e : K) = incidence f v :=
  kernelBuildSignedIncidence_apply hf v

theorem div_b1 (edges : List (Nat × Nat)) (x : Nat → K) (v : Nat) :
    EdgeFlow.div (Finset.range edges.length) (b1Entry edges) x v = divergence edges x v := by
  refine Finset.sum_congr rfl fun e he => ?_
  have he' := Finset.mem_range.mp he
  have hf := List.getElem?_eq_getElem he'
  rw [b1Entry_eq hf v, hf]
  show incidence edges[e] v * x e =
    if v = (edges[e]).2 then x e else if v = (edges[e]).1 then -x e else 0
  unfold incidence
  split_ifs <;> simp

theorem grad_b1 {n : Nat} {edges : List (Nat × Nat)} (hE : EdgesBelow n edges) (a : Nat → K)
    {e : Nat} (he : e < edges.length) :
    EdgeFlow.grad (Finset.range n) (b1Entry edges) a e = gradient edges a e := by
  have hf := List.getElem?_eq_getElem he
  obtain ⟨hlt, hn⟩ := hE _ (List.mem_of_getElem? hf)
  unfold gradient
  rw [hf]
  have hterm : ∀ v, (b1Entry edges v e : K) * a v =
      (if v = (edges[e]).2 then a v else 0) - if v = (edges[e]).1 then a v else 0 := by
    intro v
    rw [b1Entry_eq hf v]
    unfold incidence
    by_cases h₂ : v = (edges[e]).2
    · have h₁ : v ≠ (edges[e]).1 := by omega
      rw [if_pos h₂, if_pos h₂, if_neg h₁, one_mul, sub_zero]
    · rw [if_neg h₂, if_neg h₂, zero_sub]
      split_ifs <;> simp
  show ∑ v ∈ Finset.range n, b1Entry edges v e * a v = _
  rw [Finset.sum_congr rfl fun v _ => hterm v, Finset.sum_sub_distrib, Finset.sum_ite_eq',
    Finset.sum_ite_eq', if_pos (Finset.mem_range.mpr hn),
    if_pos (Finset.mem_range.mpr (hlt.trans hn))]

/-- `gamma` is the orthogonal projection of `omega` on the kernel of `L1`. -/
structure HodgeWorkspace.IsHarmonicProjection (ws : HodgeWorkspace K) (omega gamma : Nat → K) :
    Prop where
  kernel : ∀ e < ws.nEdges, ∑ f ∈ Finset.range ws.nEdges, ws.l1 e f * gamma f = 0
  orthogonal : ∀ h : Nat → K,
    (∀ e < ws.nEdges, ∑ f ∈ Finset.range ws.nEdges, ws.l1 e f * h f = 0) →
      ∑ e ∈ Finset.range ws.nEdges, h e * (omega e - gamma e) = 0

/-- The signal has no divergence, and a gradient flow gives no signal. -/
structure HodgeWorkspace.GradientFree (ws : HodgeWorkspace K) (omega gamma : Nat → K) :
    Prop where
  divergence : ∀ v < ws.nNodes, ∑ e ∈ Finset.range ws.nEdges,
    ws.b1 (v * ws.nEdges + e) * computeHodgeDecomposition ws omega gamma e = 0
  gradient : ∀ alpha : Nat → K,
    (∀ e f, ws.edges[e]? = some f → omega e = alpha f.2 - alpha f.1) →
      ∀ e < ws.nEdges, computeHodgeDecomposition ws omega gamma e = 0

variable {n : Nat} {edges : List (Nat × Nat)} {triangles : List Triangle}
variable {omega gamma : Nat → K}

/-- The workspace is an instance of the edge flows of `A = B1` and `B = B2`. -/
theorem HodgeWorkspace.IsHarmonicProjection.isHarmonicPart
    (h : (HodgeWorkspace.build K n edges triangles).IsHarmonicProjection omega gamma) :
    EdgeFlow.IsHarmonicPart (Finset.range n) (Finset.range edges.length)
      (Finset.range triangles.length) (b1Entry edges) (b2Entry edges.length triangles)
      omega gamma where
  harmonic e he := h.kernel e (Finset.mem_range.mp he)
  orthogonal x hx := h.orthogonal x fun e he => hx e (Finset.mem_range.mpr he)

variable [LinearOrder K] [IsStrictOrderedRing K]

theorem sum_b1_mul_coexact (hE : EdgesBelow n edges)
    (h : (HodgeWorkspace.build K n edges triangles).IsHarmonicProjection omega gamma) {v : Nat}
    (hv : v < n) :
    ∑ e ∈ Finset.range edges.length,
        b1Entry edges v e *
          computeHodgeDecomposition (HodgeWorkspace.build K n edges triangles) omega gamma e =
      divergence edges omega v -
        divergence edges (gradient edges (divergence edges omega)) v := by
  have hres := h.isHarmonicPart.div_residual (Finset.mem_range.mpr hv)
  have hlap : EdgeFlow.div (Finset.range edges.length) (b1Entry edges)
      (EdgeFlow.grad (Finset.range n) (b1Entry edges)
        (EdgeFlow.div (Finset.range edges.length) (b1Entry edges) omega)) v =
      divergence edges (gradient edges (divergence edges omega)) v := by
    rw [← div_b1]
    refine EdgeFlow.div_congr (fun e he => ?_) v
    rw [grad_b1 hE _ (Finset.mem_range.mp he)]
    exact congrArg (fun a => gradient edges a e) (funext fun u => div_b1 edges omega u)
  rw [hlap, div_b1 edges omega v] at hres
  exact hres

/-- A unit of flow on one edge `f`: its divergence `b` has `⟪b, b⟫ = 2`, while
`⟪b, L b⟫` is at least the square of the difference of `b` along `f`, that is 4. -/
theorem exists_divergence_ne (hE : EdgesBelow n edges) {e : Nat} (he : e < edges.length) :
    ∃ v < n, divergence edges (gradient edges (divergence edges (Pi.single e (1 : K)))) v ≠
      divergence edges (Pi.single e 1) v := by
  have hf := List.getElem?_eq_getElem he
  obtain ⟨hlt, hn⟩ := hE _ (List.mem_of_getElem? hf)
  by_contra hcon
  push Not at hcon
  let b : Nat → K := divergence edges (Pi.single e 1)
  have hb : ∀ v, b v = incidence (edges[e]) v := by
    intro v
    show divergence edges (Pi.single e 1) v = _
    rw [← div_b1, ← b1Entry_eq hf v]
    unfold EdgeFlow.div
    rw [Finset.sum_eq_single_of_mem e (Finset.mem_range.mpr he)]
    · rw [Pi.single_eq_same, mul_one]
    · intro x _ hx
      rw [Pi.single_eq_of_ne hx, mul_zero]
  have hgrad : gradient edges b e = 2 := by
    unfold gradient
    rw [hf]
    show b (edges[e]).2 - b (edges[e]).1 = 2
    rw [hb, hb, incidence_dst, incidence_src hlt, sub_neg_eq_add, one_add_one_eq_two]
  have hbb : ∑ v ∈ Finset.range n, b v * b v = 2 := by
    rw [← hgrad, ← grad_b1 hE b he]
    exact Finset.sum_congr rfl fun v _ => by
      rw [b1Entry_eq hf v, hb v]
  have hsum : ∑ x ∈ Finset.range edges.length, gradient edges b x * gradient edges b x =
      ∑ v ∈ Finset.range n, b v * b v := by
    calc ∑ x ∈ Finset.range edges.length, gradient edges b x * gradient edges b x
        = ∑ x ∈ Finset.range edges.length, gradient edges b x *
            EdgeFlow.grad (Finset.range n) (b1Entry edges) b x :=
          Finset.sum_congr rfl fun x hx => by rw [grad_b1 hE b (Finset.mem_range.mp hx)]
      _ = ∑ v ∈ Finset.range n, b v *
            EdgeFlow.div (Finset.range edges.length) (b1Entry edges) (gradient edges b) v :=
          EdgeFlow.sum_mul_grad _ _
      _ = ∑ v ∈ Finset.range n, b v * b v :=
          Finset.sum_congr rfl fun v hv => by
            rw [div_b1, hcon v (Finset.mem_range.mp hv)]
  have hle : gradient edges b e * gradient edges b e ≤
      ∑ x ∈ Finset.range edges.length, gradient edges b x * gradient edges b x :=
    Finset.single_le_sum (f := fun x => gradient edges b x * gradient edges b x)
      (fun x _ => mul_self_nonneg _) (Finset.mem_range.mpr he)
  rw [hsum, hbb, hgrad] at hle
  linarith

/-- The signal is free of gradient flow exactly when the node Laplacian fixes
the divergence of the flow, which it does for no unit flow on a single edge. -/
theorem gradientFree_iff (hE : EdgesBelow n edges)
    (hg : (HodgeWorkspace.build K n edges triangles).IsHarmonicProjection omega gamma) :
    ((HodgeWorkspace.build K n edges triangles).GradientFree omega gamma ↔
      ∀ v < n, divergence edges (gradient edges (divergence edges omega)) v =
        divergence edges omega v) ∧
    ∀ e < edges.length, omega = Pi.single e 1 →
      ¬ (HodgeWorkspace.build K n edges triangles).GradientFree omega gamma := by
  have hiff : (HodgeWorkspace.build K n edges triangles).GradientFree omega gamma ↔
      ∀ v < n, divergence edges (gradient edges (divergence edges omega)) v =
        divergence edges omega v := by
    constructor
    · intro h v hv
      have hz : divergence edges omega v -
          divergence edges (gradient edges (divergence edges omega)) v = 0 :=
        (sum_b1_mul_coexact hE hg hv).symm.trans (h.divergence v hv)
      exact (sub_eq_zero.mp hz).symm
    · intro h
      have hdiv : ∀ v < n, ∑ e ∈ Finset.range edges.length,
          b1Entry edges v e *
            computeHodgeDecomposition (HodgeWorkspace.build K n edges triangles) omega gamma e =
          0 := by
        intro v hv
        rw [sum_b1_mul_coexact hE hg hv, h v hv, sub_self]
      refine ⟨hdiv, fun alpha halpha e he => ?_⟩
      refine hg.isHarmonicPart.residual_eq_zero_of_gradient (a := alpha) (fun e he => ?_)
        (fun v hv => hdiv v (Finset.mem_range.mp hv)) e (Finset.mem_range.mpr he)
      have he' := Finset.mem_range.mp he
      have hf := List.getElem?_eq_getElem he'
      rw [grad_b1 hE alpha he', halpha e _ hf]
      unfold gradient
      rw [hf]
  refine ⟨hiff, ?_⟩
  rintro e he rfl h
  obtain ⟨v, hv, hne⟩ := exists_divergence_ne (K := K) hE he
  exact hne (hiff.mp h v hv)

end

/-- A unit of flow around the triangle 0 - 1 - 2 is harmonic when no triangle is
stored, and gives no signal. -/
theorem gradientFree_circulation :
    (HodgeWorkspace.build Rat 3 [(0, 1), (0, 2), (1, 2)] []).GradientFree
      (fun e => if e = 1 then -1 else 1) fun e => if e = 1 then -1 else 1 := by
  have hE : EdgesBelow 3 [(0, 1), (0, 2), (1, 2)] := by
    unfold EdgesBelow
    decide
  have hg : (HodgeWorkspace.build Rat 3 [(0, 1), (0, 2), (1, 2)] []).IsHarmonicProjection
      (fun e => if e = 1 then -1 else 1) fun e => if e = 1 then -1 else 1 := by
    refine ⟨by decide +kernel, fun h _ => ?_⟩
    simp
  exact (gradientFree_iff hE hg).1.mpr (by decide +kernel)

/-- One edge from node 0 to node 1 with a unit of flow, the gradient of the
potential `0, 1`: the signal on it is `-1`. -/
theorem gradientFree_single_edge :
    let ws := HodgeWorkspace.build Rat 2 [(0, 1)] []
    EdgesBelow 2 [(0, 1)] ∧ ws.IsHarmonicProjection (fun _ => 1) (fun _ => 0) ∧
      ¬ ws.GradientFree (fun _ => 1) fun _ => 0 := by
  intro ws
  have hl : ws.l1 0 0 = 2 := by decide +kernel
  refine ⟨by unfold EdgesBelow; decide, ⟨by decide +kernel, fun h hh => ?_⟩, fun hfree => ?_⟩
  · have h₀ := hh 0 (by decide)
    have hsum : ∀ f : Nat → Rat, ∑ e ∈ Finset.range ws.nEdges, f e = f 0 :=
      fun f => Finset.sum_range_one f
    rw [hsum, hl] at h₀
    rw [hsum]
    linarith
  · have h₀ := hfree.divergence 0 (by decide)
    exact absurd h₀ (by decide +kernel)

end HoloMarket
