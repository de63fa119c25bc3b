import Mathlib.Analysis.Real.Sqrt
import Mathlib.LinearAlgebra.FiniteDimensional.Lemmas
import Mathlib.LinearAlgebra.Matrix.DotProduct
import HoloMarket.Lib.WeightedLaplacian

/-!
# Spectral pruning

`FiedlerPruner` of `spectral_pruning.py`.  The Laplacian takes nodes of a degree of at
most `1e-12` out of the scaling, and the second of the two smallest eigenpairs that the
solver returns says which nodes stay.
-/

namespace HoloMarket
namespace SpectralPruning

open Matrix WeightedLaplacian

section Code

variable {K : Type*} [Field K] [LinearOrder K] {n : Nat}

structure SpectralConfig (K : Type*) where
  retentionThreshold : K

structure PruningResult (K : Type*) (n : Nat) where
  originalSize : Nat
  prunedSize : Nat
  fiedlerEigenvalue : K
  retainedIndices : List (Fin n)
  prunedAdjacency : List (List K)
  fiedlerVector : Fin n → K

def dInvSqrt (sqrt : K → K) (adj : Matrix (Fin n) (Fin n) K) (i : Fin n) : K :=
  if 1 / (10 ^ 12 : Nat) < degree adj i then 1 / sqrt (degree adj i) else 0

def buildLaplacian (sqrt : K → K) (adj : Matrix (Fin n) (Fin n) K) : Matrix (Fin n) (Fin n) K :=
  normalized adj (dInvSqrt sqrt adj)

/-- `eigsh` is the solver: of the two smallest eigenpairs it returns the second. -/
def prune (config : SpectralConfig K) (sqrt : K → K)
    (eigsh : Matrix (Fin n) (Fin n) K → K × (Fin n → K)) (adj : Matrix (Fin n) (Fin n) K) :
    PruningResult K n :=
  let (fVal, fVec) := eigsh (buildLaplacian sqrt adj)
  let retained := (List.finRange n).filter fun i =>
    decide (config.retentionThreshold ≤ |fVec i|)
  { originalSize := n
    prunedSize := retained.length
    fiedlerEigenvalue := fVal
    retainedIndices := retained
    prunedAdjacency := retained.map fun i => retained.map fun j => adj i j
    fiedlerVector := fVec }

end Code

variable {n : Nat} {adj : Matrix (Fin n) (Fin n) ℝ}

/-- What the solver promises: the pair is the second of two orthonormal eigenpairs, and
nothing orthogonal to both lies below it. -/
structure IsSecondSmallest (L : Matrix (Fin n) (Fin n) ℝ) (pair : ℝ × (Fin n → ℝ)) : Prop where
  exists_first : ∃ lam v, lam ≤ pair.1 ∧ L *ᵥ v = lam • v ∧ v ⬝ᵥ v = 1 ∧ v ⬝ᵥ pair.2 = 0 ∧
    ∀ x, x ⬝ᵥ v = 0 → x ⬝ᵥ pair.2 = 0 → pair.1 * (x ⬝ᵥ x) ≤ x ⬝ᵥ (L *ᵥ x)
  eigen : L *ᵥ pair.2 = pair.1 • pair.2
  unit : pair.2 ⬝ᵥ pair.2 = 1

/-- The weights are symmetric and not negative. -/
structure IsAdjacency (adj : Matrix (Fin n) (Fin n) ℝ) : Prop where
  symm : ∀ i j, adj i j = adj j i
  nonneg : ∀ i j, 0 ≤ adj i j

theorem scaled_dInvSqrt (h : IsAdjacency adj) : Scaled adj (dInvSqrt Real.sqrt adj) where
  symm := h.symm
  nonneg := h.nonneg
  scale i hi := by
    unfold dInvSqrt at hi ⊢
    by_cases hdeg : 1 / ((10 ^ 12 : Nat) : ℝ) < degree adj i
    · have hpos : 0 < degree adj i := lt_trans (by norm_num) hdeg
      have hroot := (Real.sqrt_pos.mpr hpos).ne'
      rw [if_pos hdeg, div_mul_div_comm, Real.mul_self_sqrt hpos.le, one_mul,
        one_div_mul_cancel hpos.ne']
    · exact absurd (if_neg hdeg) hi

/-- A node whose degree the scaling keeps. -/
def Valid (adj : Matrix (Fin n) (Fin n) ℝ) (i : Fin n) : Prop :=
  1 / ((10 ^ 12 : Nat) : ℝ) < degree adj i

/-- The components all of whose nodes are valid. -/
def ValidComponent (adj : Matrix (Fin n) (Fin n) ℝ) : Type :=
  {c : (graph adj).ConnectedComponent // ∀ i, (graph adj).connectedComponentMk i = c → Valid adj i}

theorem dInvSqrt_ne_zero_iff (i : Fin n) : dInvSqrt Real.sqrt adj i ≠ 0 ↔ Valid adj i := by
  unfold dInvSqrt Valid
  by_cases hdeg : 1 / ((10 ^ 12 : Nat) : ℝ) < degree adj i
  · have hpos : 0 < degree adj i := lt_trans (by norm_num) hdeg
    rw [if_pos hdeg]
    exact iff_of_true (one_div_ne_zero (Real.sqrt_pos.mpr hpos).ne') hdeg
  · rw [if_neg hdeg]
    exact iff_of_false (fun hne => hne rfl) hdeg

/-- The zero eigenvalue of the Laplacian has the multiplicity of the valid components. -/
theorem finrank_buildLaplacian (h : IsAdjacency adj) :
    Module.finrank ℝ (LinearMap.ker (toLin' (buildLaplacian Real.sqrt adj))) =
      Nat.card (ValidComponent adj) := by
  refine (finrank_kernel (scaled_dInvSqrt h)).trans (Nat.card_congr ?_)
  refine Equiv.subtypeEquivRight fun c => ?_
  simp only [Sound, dInvSqrt_ne_zero_iff]

section Fiedler

variable {L : Matrix (Fin n) (Fin n) ℝ} {pair : ℝ × (Fin n → ℝ)}

theorem form_eigen {lam : ℝ} {v : Fin n → ℝ} (hv : L *ᵥ v = lam • v) (hunit : v ⬝ᵥ v = 1) :
    v ⬝ᵥ (L *ᵥ v) = lam := by
  rw [hv, dotProduct_smul, hunit, smul_eq_mul, mul_one]

/-- Two orthonormal vectors of the kernel. -/
theorem two_le_finrank {u v : Fin n → ℝ} (hu : L *ᵥ u = 0) (hv : L *ᵥ v = 0)
    (hu₁ : u ⬝ᵥ u = 1) (hv₁ : v ⬝ᵥ v = 1) (huv : u ⬝ᵥ v = 0) :
    2 ≤ Module.finrank ℝ (LinearMap.ker (toLin' L)) := by
  have hmem : ∀ {x : Fin n → ℝ}, L *ᵥ x = 0 → x ∈ LinearMap.ker (toLin' L) := fun {x} hx => by
    rw [LinearMap.mem_ker, toLin'_apply, hx]
  have hind : LinearIndependent ℝ
      ![(⟨u, hmem hu⟩ : LinearMap.ker (toLin' L)), ⟨v, hmem hv⟩] := by
    rw [LinearIndependent.pair_iff]
    intro a b hab
    have hsum : a • u + b • v = 0 := congrArg Subtype.val hab
    have ha : u ⬝ᵥ (a • u + b • v) = a := by
      rw [dotProduct_add, dotProduct_smul, dotProduct_smul, hu₁, huv, smul_eq_mul, smul_eq_mul]
      ring
    have hb : v ⬝ᵥ (a • u + b • v) = b := by
      rw [dotProduct_add, dotProduct_smul, dotProduct_smul, hv₁, dotProduct_comm v u, huv,
        smul_eq_mul, smul_eq_mul]
      ring
    rw [hsum, dotProduct_zero] at ha hb
    exact ⟨ha.symm, hb.symm⟩
  simpa using hind.fintype_card_le_finrank

/-- A kernel of two dimensions has a vector orthogonal to a given one. -/
theorem exists_orthogonal (h : 2 ≤ Module.finrank ℝ (LinearMap.ker (toLin' L)))
    (v : Fin n → ℝ) : ∃ x, x ≠ 0 ∧ L *ᵥ x = 0 ∧ x ⬝ᵥ v = 0 := by
  obtain ⟨f, hf⟩ : ∃ f : LinearMap.ker (toLin' L) →ₗ[ℝ] ℝ, ∀ x, f x = x.1 ⬝ᵥ v :=
    ⟨{ toFun := fun x => x.1 ⬝ᵥ v
       map_add' := fun x y => add_dotProduct _ _ _
       map_smul' := fun a x => smul_dotProduct _ _ _ }, fun _ => rfl⟩
  have hrank := f.finrank_range_add_finrank_ker
  have hrange : Module.finrank ℝ (LinearMap.range f) ≤ 1 :=
    (Submodule.finrank_le _).trans (Module.finrank_self ℝ).le
  have hker : 0 < Module.finrank ℝ (LinearMap.ker f) := by omega
  have hne : LinearMap.ker f ≠ ⊥ := by
    intro hbot
    rw [hbot, finrank_bot] at hker
    exact absurd hker (lt_irrefl 0)
  obtain ⟨x, hmem, hx⟩ := Submodule.exists_mem_ne_zero_of_ne_bot hne
  have hzero : L *ᵥ x.1 = 0 := by
    have hker' := x.2
    rwa [LinearMap.mem_ker, toLin'_apply] at hker'
  refine ⟨x.1, fun hnil => hx (Subtype.ext hnil), hzero, ?_⟩
  rw [← hf]
  exact hmem

/-- The second eigenvalue vanishes exactly when the kernel has two dimensions. -/
theorem second_eq_zero_iff (hsymm : ∀ x y, x ⬝ᵥ (L *ᵥ y) = y ⬝ᵥ (L *ᵥ x))
    (hpos : ∀ x, 0 ≤ x ⬝ᵥ (L *ᵥ x)) (h : IsSecondSmallest L pair) :
    pair.1 = 0 ↔ 2 ≤ Module.finrank ℝ (LinearMap.ker (toLin' L)) := by
  obtain ⟨lam, v, hle, hv, hunit, horth, hmin⟩ := h.exists_first
  have hlam : 0 ≤ lam := by
    rw [← form_eigen hv hunit]
    exact hpos v
  constructor
  · intro hzero
    have hlam₀ : lam = 0 := le_antisymm (hle.trans_eq hzero) hlam
    have heigen := h.eigen
    rw [hzero, zero_smul] at heigen
    rw [hlam₀, zero_smul] at hv
    exact two_le_finrank hv heigen hunit h.unit horth
  · intro hrank
    by_contra hne
    obtain ⟨x, hx, hker, hxv⟩ := exists_orthogonal hrank v
    have hxw : x ⬝ᵥ pair.2 = 0 := by
      have heq := hsymm pair.2 x
      rw [hker, dotProduct_zero, h.eigen, dotProduct_smul, smul_eq_mul] at heq
      exact (mul_eq_zero.mp heq.symm).resolve_left hne
    have hlow := hmin x hxv hxw
    rw [hker, dotProduct_zero] at hlow
    have hlen : 0 < x ⬝ᵥ x := by
      refine lt_of_le_of_ne (Finset.sum_nonneg fun i _ => mul_self_nonneg _) fun hnil => hx ?_
      exact dotProduct_self_eq_zero.mp hnil.symm
    have hval : 0 < pair.1 := lt_of_le_of_ne (hlam.trans hle) (Ne.symm hne)
    exact absurd (mul_pos hval hlen) (not_lt.mpr hlow)

end Fiedler

theorem normalized_symm (h : ∀ i j, adj i j = adj j i) (s x y : Fin n → ℝ) :
    x ⬝ᵥ (normalized adj s *ᵥ y) = y ⬝ᵥ (normalized adj s *ᵥ x) := by
  have hform : ∀ x y : Fin n → ℝ, x ⬝ᵥ (normalized adj s *ᵥ y) =
      ∑ i, x i * y i - ∑ i, ∑ j, adj i j * (s i * x i) * (s j * y j) := by
    intro x y
    unfold dotProduct
    rw [← Finset.sum_sub_distrib]
    refine Finset.sum_congr rfl fun i _ => ?_
    rw [mulVec_normalized, mul_sub, Finset.mul_sum, Finset.mul_sum]
    exact congrArg _ (Finset.sum_congr rfl fun j _ => by ring)
  rw [hform, hform, Finset.sum_comm]
  refine congrArg₂ _ (Finset.sum_congr rfl fun i _ => mul_comm _ _)
    (Finset.sum_congr rfl fun j _ => Finset.sum_congr rfl fun i _ => ?_)
  rw [h i j]
  ring

/-- While the threshold is below the mean length of the entries, some node stays. -/
theorem exists_retained {f : Fin n → ℝ} (hunit : f ⬝ᵥ f = 1) {threshold : ℝ}
    (hsmall : threshold ^ 2 * n ≤ 1) : ∃ i, threshold ≤ |f i| := by
  by_contra hall
  have hlt : ∀ i, f i * f i < threshold ^ 2 := by
    intro i
    have hi : |f i| < threshold := not_le.mp fun hi => hall ⟨i, hi⟩
    rw [← sq]
    exact sq_lt_sq' (by linarith [neg_abs_le (f i)]) ((le_abs_self _).trans_lt hi)
  have hn : (Finset.univ : Finset (Fin n)).Nonempty := by
    by_contra hempty
    rw [Finset.not_nonempty_iff_eq_empty] at hempty
    unfold dotProduct at hunit
    rw [hempty, Finset.sum_empty] at hunit
    exact zero_ne_one hunit
  have hsum : f ⬝ᵥ f < ∑ _i : Fin n, threshold ^ 2 :=
    Finset.sum_lt_sum_of_nonempty hn fun i _ => hlt i
  rw [Finset.sum_const, Finset.card_univ, Fintype.card_fin, nsmul_eq_mul, hunit] at hsum
  linarith

/-- The eigenvalue that the pruner reports lies in the spectrum of a normalized Laplacian,
and is zero exactly when two components of the graph consist of valid nodes; some node
is kept while the square of the threshold times the number of nodes is at most one. -/
theorem prune_fiedler (h : IsAdjacency adj) (config : SpectralConfig ℝ)
    (eigsh : Matrix (Fin n) (Fin n) ℝ → ℝ × (Fin n → ℝ))
    (heigsh : IsSecondSmallest (buildLaplacian Real.sqrt adj)
      (eigsh (buildLaplacian Real.sqrt adj))) :
    let r := prune config Real.sqrt eigsh adj
    (0 ≤ r.fiedlerEigenvalue ∧ r.fiedlerEigenvalue ≤ 2) ∧
    (r.fiedlerEigenvalue = 0 ↔ 2 ≤ Nat.card (ValidComponent adj)) ∧
    (config.retentionThreshold ^ 2 * n ≤ 1 → r.retainedIndices ≠ []) := by
  have hscaled := scaled_dInvSqrt h
  have hform := form_eigen heigsh.eigen heigsh.unit
  refine ⟨⟨?_, ?_⟩, ?_, fun hsmall => ?_⟩
  · exact (form_nonneg hscaled _).trans_eq hform
  · refine hform.symm.trans_le ((form_le hscaled _).trans_eq ?_)
    have hunit := heigsh.unit
    unfold dotProduct at hunit
    simp only [sq, hunit, mul_one]
  · rw [← finrank_buildLaplacian h]
    exact second_eq_zero_iff (normalized_symm h.symm _) (form_nonneg hscaled) heigsh
  · obtain ⟨i, hi⟩ := exists_retained heigsh.unit hsmall
    exact List.ne_nil_of_mem (List.mem_filter.mpr ⟨List.mem_finRange i, decide_eq_true hi⟩)

/-- Four nodes and two edges that do not meet. -/
def twoEdges : Matrix (Fin 4) (Fin 4) ℝ :=
  !![0, 1, 0, 0; 1, 0, 0, 0; 0, 0, 0, 1; 0, 0, 1, 0]

theorem isAdjacency_twoEdges : IsAdjacency twoEdges := by
  constructor
  · intro i j
    fin_cases i <;> fin_cases j <;> rfl
  · intro i j
    fin_cases i <;> fin_cases j <;> simp [twoEdges]

theorem buildLaplacian_twoEdges : buildLaplacian Real.sqrt twoEdges = 1 - twoEdges := by
  have hdegree : ∀ i, degree twoEdges i = 1 := by
    intro i
    fin_cases i <;> simp [degree, twoEdges, Fin.sum_univ_four]
  have hscale : dInvSqrt Real.sqrt twoEdges = fun _ => 1 := by
    funext i
    unfold dInvSqrt
    rw [hdegree, if_pos (by norm_num), Real.sqrt_one, one_div_one]
  unfold buildLaplacian normalized
  rw [hscale, Matrix.diagonal_one, one_mul, mul_one]

/-- The solver answers with the difference of the two edges. -/
theorem prune_fiedler_twoEdges :
    2 ≤ Nat.card (ValidComponent twoEdges) ∧
      (prune ⟨1 / 10 ^ 4⟩ Real.sqrt (fun _ => (0, ![1 / 2, 1 / 2, -(1 / 2), -(1 / 2)]))
        twoEdges).retainedIndices ≠ [] := by
  have hnonneg : ∀ x : Fin 4 → ℝ, 0 ≤ x ⬝ᵥ ((1 - twoEdges) *ᵥ x) := by
    intro x
    rw [← buildLaplacian_twoEdges]
    exact form_nonneg (scaled_dInvSqrt isAdjacency_twoEdges) x
  -- a value for each edge is in the kernel
  have hkernel : ∀ a b : ℝ, (1 - twoEdges) *ᵥ ![a, a, b, b] = (0 : ℝ) • ![a, a, b, b] := by
    intro a b
    rw [zero_smul, sub_mulVec, one_mulVec, sub_eq_zero]
    funext i
    fin_cases i <;> simp [twoEdges, mulVec, dotProduct, Fin.sum_univ_four]
  have hdot : ∀ a b c d : ℝ, ![a, a, b, b] ⬝ᵥ ![c, c, d, d] = a * c + a * c + b * d + b * d := by
    intro a b c d
    simp [dotProduct, Fin.sum_univ_four]
  have heigsh : IsSecondSmallest (buildLaplacian Real.sqrt twoEdges)
      (0, ![1 / 2, 1 / 2, -(1 / 2), -(1 / 2)]) := by
    rw [buildLaplacian_twoEdges]
    refine ⟨⟨0, ![1 / 2, 1 / 2, 1 / 2, 1 / 2], le_rfl, hkernel _ _, (hdot ..).trans ?_,
      (hdot ..).trans ?_, fun x _ _ => ?_⟩, hkernel _ _, (hdot ..).trans ?_⟩
    · norm_num
    · norm_num
    · rw [zero_mul]
      exact hnonneg x
    · norm_num
  have h := prune_fiedler isAdjacency_twoEdges ⟨1 / 10 ^ 4⟩
    (fun _ => (0, ![1 / 2, 1 / 2, -(1 / 2), -(1 / 2)])) heigsh
  exact ⟨h.2.1.mp rfl, h.2.2 (by norm_num)⟩

end SpectralPruning
end HoloMarket
