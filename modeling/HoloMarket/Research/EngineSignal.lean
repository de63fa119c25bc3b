import HoloMarket.Math.CompleteHodge
import HoloMarket.Research.HodgeDecomposition

/-!
# The signal of the engine and the research decomposition

Both split a flow on the edges of one graph.  The research code projects on the
gradients; the engine takes `B1ᵀ B1` of the flow in its place, which on the complete
graph of `n` nodes is `n` times that projection.
-/

namespace HoloMarket

open CompleteComplex GaugeTheory Matrix PseudoInverse

/-- The edges of the engine as `gauge_theory_alpha.py` lists them. -/
def researchEdges (edges : List (Nat × Nat)) : List (Int × Int) :=
  edges.map fun f => ((f.1 : Int), (f.2 : Int))

theorem length_researchEdges {edges : List (Nat × Nat)} :
    (researchEdges edges).length = edges.length := List.length_map _

variable {K : Type}

/-- A node potential on all addresses. -/
def extendNodes [Zero K] {n : Nat} (a : Fin n → K) (v : Nat) : K :=
  if h : v < n then a ⟨v, h⟩ else 0

theorem extendNodes_apply [Zero K] {n : Nat} (a : Fin n → K) (v : Fin n) :
    extendNodes a v = a v := dif_pos v.isLt

section
variable [CommRing K] {n : Nat} {edges : List (Nat × Nat)} {faces : List (Int × Int × Int)}
variable {b1 : Matrix (Fin (researchEdges edges).length) (Fin n) K}
variable {b2 : Matrix (Fin faces.length) (Fin (researchEdges edges).length) K}

theorem researchB1_apply (hE : EdgesBelow n edges)
    (h : GaugeTheory.buildIncidenceMatrices K n (researchEdges edges) faces = .ok (b1, b2))
    (e : Fin (researchEdges edges).length) (v : Fin n) : b1 e v = b1Entry edges v e := by
  unfold GaugeTheory.buildIncidenceMatrices at h
  obtain ⟨b1', h1, h⟩ := exists_of_bind_eq_ok h
  obtain ⟨looked, -, h⟩ := exists_of_bind_eq_ok h
  obtain ⟨b2', -, h⟩ := exists_of_bind_eq_ok h
  cases h
  obtain ⟨-, rfl⟩ := csrMatrix_eq_ok.mp h1
  have hlt : e.val < edges.length := e.isLt.trans_eq length_researchEdges
  have hf := List.getElem?_eq_getElem hlt
  have hr : (researchEdges edges)[e.val]? =
      some (((edges[e.val]).1 : Int), ((edges[e.val]).2 : Int)) := by
    unfold researchEdges
    rw [List.getElem?_map, hf]
    rfl
  obtain ⟨hij, -⟩ := hE _ (List.getElem_mem hlt)
  show SparseMatrix.cell _ (e.val : Int) (v.val : Int) = _
  rw [cell_b1 hr, b1Entry_eq hf]
  unfold incidence
  by_cases h₂ : v.val = (edges[e.val]).2
  · rw [if_pos (by omega), if_neg (by omega), if_pos h₂, sub_zero]
  · rw [if_neg (by omega), if_neg h₂, zero_sub]
    by_cases h₁ : v.val = (edges[e.val]).1
    · rw [if_pos (by omega), if_pos h₁]
    · rw [if_neg (by omega), if_neg h₁, neg_zero]

theorem researchB1_mulVec (hE : EdgesBelow n edges)
    (h : GaugeTheory.buildIncidenceMatrices K n (researchEdges edges) faces = .ok (b1, b2))
    (a : Fin n → K) (e : Fin (researchEdges edges).length) :
    (b1 *ᵥ a) e = gradient edges (extendNodes a) e := by
  have hlt : e.val < edges.length := e.isLt.trans_eq length_researchEdges
  rw [← grad_b1 hE _ hlt]
  show ∑ v, b1 e v * a v = ∑ v ∈ Finset.range n, b1Entry edges v e.val * extendNodes a v
  rw [Finset.sum_range]
  refine Finset.sum_congr rfl fun v _ => ?_
  rw [researchB1_apply hE h, extendNodes_apply]

theorem researchB1_transpose_mulVec (hE : EdgesBelow n edges)
    (h : GaugeTheory.buildIncidenceMatrices K n (researchEdges edges) faces = .ok (b1, b2))
    (x : Nat → K) (v : Fin n) :
    (b1ᵀ *ᵥ fun e => x e) v = divergence edges x v := by
  rw [← div_b1]
  unfold EdgeFlow.div
  rw [← length_researchEdges, Finset.sum_range]
  show ∑ e, b1 e v * x e.val = _
  exact Finset.sum_congr rfl fun e _ => by rw [researchB1_apply hE h]

/-- On all pairs the divergence of a gradient compares a node with all others. -/
theorem ListsAllPairs.divergence_gradient (h : ListsAllPairs n edges) (a : Nat → K) {v : Nat}
    (hv : v < n) :
    divergence edges (gradient edges a) v = n * a v - ∑ u ∈ Finset.range n, a u := by
  rw [h.divergence_eq, ← inflow_sub a hv]
  refine pairSum_congr fun i j hij hj => ?_
  have hpair : onPair edges (gradient edges a) i j = a j - a i := by
    unfold onPair gradient
    rw [h.all.getElem?_idxOf hij hj]
  rw [hpair]

end

variable [Field K] [LinearOrder K] [IsStrictOrderedRing K]

/-- On the complete graph the engine's signal is the harmonic and the curl flow of the
research decomposition less `n - 1` times its gradient flow, for every flow, whatever
faces the research complex has, and in any order of the threads. -/
theorem coexact_eq_research {n : Nat} {laplacian : SparseLaplacian}
    {edgeSlots : List (Nat × Nat)} {slots : List Triangle}
    (h : CompleteLaunch n laplacian edgeSlots slots) {ws : HodgeWorkspace K}
    (hws : ws = HoloMarket.buildIncidenceMatrices K laplacian edgeSlots slots)
    {vectors values : Nat → K}
    (hmodes : ∀ k < ws.nEdges, ws.IsMode (values k) fun e => vectors (k * ws.nEdges + e))
    {faces : List (Int × Int × Int)}
    {b1 : Matrix (Fin (researchEdges edgeSlots).length) (Fin n) K}
    {b2 : Matrix (Fin faces.length) (Fin (researchEdges edgeSlots).length) K}
    (hresearch : GaugeTheory.buildIncidenceMatrices K n (researchEdges edgeSlots) faces =
      .ok (b1, b2))
    (pinv : ∀ {k : Nat}, Matrix (Fin k) (Fin k) K → Matrix (Fin k) (Fin k) K)
    (hpinv : IsMoorePenrose (b1ᵀ * b1) (pinv (b1ᵀ * b1))) (omega : Nat → K)
    (e : Fin (researchEdges edgeSlots).length) :
    computeHodgeDecomposition ws omega (ws.gamma vectors values omega) e =
      (hodgeDecomposition pinv b1 b2 fun f => omega f).harmonicFlow e +
        (hodgeDecomposition pinv b1 b2 fun f => omega f).curlFlow e -
          (n - 1) * (hodgeDecomposition pinv b1 b2 fun f => omega f).gradientFlow e := by
  rw [h.buildIncidenceMatrices_eq] at hws
  subst hws
  have hpairs := h.listsAllPairs
  have hgamma := HodgeWorkspace.gamma_eq_zero (.build K n edgeSlots slots) vectors
    (fun k hk => (h.le_values hmodes k hk).2) omega
  let alpha : Fin n → K := (pinv (b1ᵀ * b1) * b1ᵀ) *ᵥ fun f => omega f
  have hgradient : (hodgeDecomposition pinv b1 b2 fun f => omega f).gradientFlow e =
      gradient edgeSlots (extendNodes alpha) e :=
    researchB1_mulVec hpairs.below hresearch alpha e
  -- the projection leaves the divergence of the flow as it is
  have hdiv : ∀ v < n, divergence edgeSlots omega v =
      n * extendNodes alpha v - ∑ u ∈ Finset.range n, extendNodes alpha u := by
    intro v hv
    have hzero := hpinv.transpose_mulVec_sub fun f : Fin (researchEdges edgeSlots).length =>
      omega f
    rw [mulVec_sub, mulVec_mulVec _ (pinv (b1ᵀ * b1)), sub_eq_zero] at hzero
    have hpot : b1 *ᵥ alpha = fun f => gradient edgeSlots (extendNodes alpha) f.val :=
      funext fun f => researchB1_mulVec hpairs.below hresearch alpha f
    have hv' := congrFun hzero ⟨v, hv⟩
    rw [researchB1_transpose_mulVec hpairs.below hresearch] at hv'
    refine hv'.trans ?_
    show (b1ᵀ *ᵥ (b1 *ᵥ alpha)) ⟨v, hv⟩ = _
    rw [hpot, researchB1_transpose_mulVec hpairs.below hresearch,
      hpairs.divergence_gradient _ hv]
  have hexact : kernelExactComponent (kernelBuildSignedIncidence edgeSlots) omega (fun _ => 0)
      edgeSlots.length n e = n * gradient edgeSlots (extendNodes alpha) e := by
    have hlt : e.val < edgeSlots.length := e.isLt.trans_eq length_researchEdges
    have hedge := List.getElem?_eq_getElem hlt
    obtain ⟨hij, hj⟩ := hpairs.below _ (List.getElem_mem hlt)
    have hgrad : kernelExactComponent (kernelBuildSignedIncidence edgeSlots) omega (fun _ => 0)
        edgeSlots.length n e = gradient edgeSlots (divergence edgeSlots omega) e := by
      rw [← grad_b1 hpairs.below _ hlt]
      refine Finset.sum_congr rfl fun v _ => ?_
      rw [← div_b1]
      simp only [sub_zero]
      rfl
    rw [hgrad]
    unfold gradient
    rw [hedge]
    dsimp only
    rw [hdiv _ hj, hdiv _ (hij.trans hj)]
    ring
  have hrest : (hodgeDecomposition pinv b1 b2 fun f => omega f).harmonicFlow e +
      (hodgeDecomposition pinv b1 b2 fun f => omega f).curlFlow e =
        omega e - (hodgeDecomposition pinv b1 b2 fun f => omega f).gradientFlow e :=
    sub_add_cancel _ _
  unfold computeHodgeDecomposition kernelCoexactComponent
  rw [funext hgamma, hrest, hgradient, sub_zero]
  show omega e - kernelExactComponent (kernelBuildSignedIncidence edgeSlots) omega (fun _ => 0)
    edgeSlots.length n e = _
  rw [hexact]
  ring

/-- The research matrices of three nodes with one face. -/
def threeB1 : Matrix (Fin (researchEdges threeEdges).length) (Fin 3) ℚ :=
  SparseMatrix.dense _ 3 (SparseMatrix.rowsFrom b1Row 0 (researchEdges threeEdges))

def threeB2 : Matrix (Fin 1) (Fin (researchEdges threeEdges).length) ℚ :=
  SparseMatrix.dense 1 _ (SparseMatrix.rowsFrom b2Row 0 [(0, 2, -2)])

/-- A unit of flow on the first edge. -/
theorem coexact_eq_research_three :
    let e : Fin (researchEdges threeEdges).length := ⟨0, by decide⟩
    computeHodgeDecomposition threeWorkspace (fun f => if f = 0 then 1 else 0)
        (threeWorkspace.gamma threeVectors threeValues fun f => if f = 0 then 1 else 0) e =
      (hodgeDecomposition (fun A => ((9 : Nat) : ℚ)⁻¹ • A) threeB1 threeB2
          fun f => if f.val = 0 then 1 else 0).harmonicFlow e +
        (hodgeDecomposition (fun A => ((9 : Nat) : ℚ)⁻¹ • A) threeB1 threeB2
          fun f => if f.val = 0 then 1 else 0).curlFlow e -
        ((3 : Nat) - 1) * (hodgeDecomposition (fun A => ((9 : Nat) : ℚ)⁻¹ • A) threeB1 threeB2
          fun f => if f.val = 0 then 1 else 0).gradientFlow e := by
  have hbuild : GaugeTheory.buildIncidenceMatrices ℚ 3 (researchEdges threeEdges) [(0, 1, 2)] =
      .ok (threeB1, threeB2) := by rfl
  have hpinv : IsMoorePenrose (threeB1ᵀ * threeB1)
      ((fun A => ((9 : Nat) : ℚ)⁻¹ • A) (threeB1ᵀ * threeB1)) :=
    ⟨by decide +kernel, by decide +kernel, by decide +kernel, by decide +kernel⟩
  exact coexact_eq_research completeLaunch_three rfl isMode_three hbuild
    (fun A => ((9 : Nat) : ℚ)⁻¹ • A) hpinv _ _

end HoloMarket
