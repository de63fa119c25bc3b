import HoloMarket.Lib.Eigenbasis
import HoloMarket.Math.Coexact

/-!
# The harmonic projection

`kernel_harmonic_projection` and the count of the harmonic dimensions of
`hodge_kernel.cu`: every mode of `L1` below the threshold is taken for a harmonic
one.  The eigen-solver is a parameter with its documented contract.
-/

namespace HoloMarket

variable {K : Type*} [Field K] [LinearOrder K]

def kHarmonicThreshold (K : Type*) [Field K] : K := 1 / ((10000 : Nat) : K)

/-- What thread `e` stores in `d_gamma`. -/
def kernelHarmonicProjection (eigenvectors eigenvalues omega : Nat → K) (nEdges nEigs : Nat)
    (threshold : K) (e : Nat) : K :=
  ∑ k ∈ Finset.range nEigs,
    if |eigenvalues k| < threshold then
      eigenvectors (k * nEdges + e) *
        ∑ f ∈ Finset.range nEdges, eigenvectors (k * nEdges + f) * omega f
    else 0

/-- The loop over `h_evals`. -/
def countHarmonicDims (eigenvalues : Nat → K) (nEdges : Nat) : Nat :=
  (List.range nEdges).foldl
    (fun count i => if |eigenvalues i| < kHarmonicThreshold K then count + 1 else count) 0

/-- What `cusolverDnSsyevd` returns for the symmetric matrix `l1`: the row `k` of the
buffer is a unit eigenvector of the eigenvalue `k`, and the rows are orthogonal. -/
structure Ssyevd (nEdges : Nat) (l1 : Nat → Nat → K) (eigenvectors eigenvalues : Nat → K) :
    Prop where
  eigen : ∀ k < nEdges, ∀ e < nEdges,
    ∑ f ∈ Finset.range nEdges, l1 e f * eigenvectors (k * nEdges + f) =
      eigenvalues k * eigenvectors (k * nEdges + e)
  orthonormal : ∀ j < nEdges, ∀ k < nEdges,
    ∑ e ∈ Finset.range nEdges, eigenvectors (j * nEdges + e) * eigenvectors (k * nEdges + e) =
      if j = k then 1 else 0

/-- `d_gamma` after the projection. -/
def HodgeWorkspace.gamma (ws : HodgeWorkspace K) (eigenvectors eigenvalues omega : Nat → K) :
    Nat → K :=
  kernelHarmonicProjection eigenvectors eigenvalues omega ws.nEdges ws.nEdges
    (kHarmonicThreshold K)

/-- `L1` as a matrix. -/
def HodgeWorkspace.l1Matrix (ws : HodgeWorkspace K) : Matrix (Fin ws.nEdges) (Fin ws.nEdges) K :=
  Matrix.of fun e f => ws.l1 e f

/-! ## The count -/

theorem foldl_count {R : Type*} [AddCommMonoidWithOne R] (p : Nat → Prop) [DecidablePred p]
    (ks : List Nat) (z : R) :
    ks.foldl (fun count i => if p i then count + 1 else count) z = z + (ks.countP p : Nat) := by
  induction ks generalizing z with
  | nil => rw [List.foldl_nil, List.countP_nil, Nat.cast_zero, add_zero]
  | cons k ks ih =>
    rw [List.foldl_cons, ih, List.countP_cons]
    by_cases hk : p k
    · rw [if_pos hk, if_pos (decide_eq_true hk), Nat.cast_succ, add_assoc, add_comm (1 : R)]
    · rw [if_neg hk, if_neg (by rwa [decide_eq_true_eq]), Nat.add_zero]

theorem countHarmonicDims_eq (eigenvalues : Nat → K) (nEdges : Nat) :
    countHarmonicDims eigenvalues nEdges =
      Fintype.card {k : Fin nEdges // |eigenvalues k| < kHarmonicThreshold K} := by
  unfold countHarmonicDims
  rw [foldl_count, Nat.zero_add, Nat.cast_id, Fintype.card_subtype, List.countP_eq_length_filter,
    ← List.toFinset_card_of_nodup (List.nodup_range.filter _), ← Finset.card_map Fin.valEmbedding]
  congr 1
  ext k
  simp only [List.mem_toFinset, List.mem_filter, List.mem_range, decide_eq_true_eq,
    Finset.mem_map, Finset.mem_filter, Finset.mem_univ, true_and, Fin.valEmbedding_apply]
  constructor
  · rintro ⟨hk, hsmall⟩
    exact ⟨⟨k, hk⟩, hsmall, rfl⟩
  · rintro ⟨i, hsmall, rfl⟩
    exact ⟨i.isLt, hsmall⟩

/-! ## The modes as an eigenbasis -/

section
variable {n : Nat} {l1 : Nat → Nat → K} {vectors values : Nat → K}

/-- The buffer of eigenvectors as a matrix with a row for each mode. -/
def modes (n : Nat) (vectors : Nat → K) : Matrix (Fin n) (Fin n) K :=
  Matrix.of fun k e => vectors (k * n + e)

omit [LinearOrder K] in
theorem Ssyevd.isEigenbasis (h : Ssyevd n l1 vectors values) :
    Eigenbasis.IsEigenbasis (Matrix.of fun e f : Fin n => l1 e f) (modes n vectors)
      fun k => values k where
  eigen := by
    ext e k
    rw [Matrix.mul_diagonal, Matrix.mul_apply, mul_comm]
    exact (Finset.sum_range fun f => l1 e f * vectors (k * n + f)).symm.trans
      (h.eigen k k.isLt e e.isLt)
  orthonormal := by
    ext j k
    rw [Matrix.mul_apply, Matrix.one_apply]
    refine (Finset.sum_range fun e => vectors (j * n + e) * vectors (k * n + e)).symm.trans ?_
    rw [h.orthonormal j j.isLt k k.isLt]
    exact if_congr Fin.ext_iff.symm rfl rfl

theorem kernelHarmonicProjection_eq (omega : Nat → K) (threshold : K) (e : Fin n) :
    kernelHarmonicProjection vectors values omega n n threshold e =
      Eigenbasis.project (modes n vectors) (fun k => |values k| < threshold)
        (fun f => omega f) e := by
  unfold kernelHarmonicProjection Eigenbasis.project
  rw [Finset.sum_range]
  refine Finset.sum_congr rfl fun k _ => ?_
  show _ = vectors (k * n + e) * _
  rw [mul_ite, mul_zero, Finset.sum_range]
  rfl

end

/-! ## When the projection is the one on the kernel -/

omit [LinearOrder K] in
/-- The kernel of `L1` over functions of all addresses and over vectors. -/
theorem HodgeWorkspace.isHarmonicProjection_iff (ws : HodgeWorkspace K) (omega gamma : Nat → K) :
    ws.IsHarmonicProjection omega gamma ↔
      ws.l1Matrix.mulVec (fun e => gamma e) = 0 ∧
        ∀ y, ws.l1Matrix.mulVec y = 0 →
          dotProduct y ((fun e : Fin ws.nEdges => omega e) -
            fun e : Fin ws.nEdges => gamma e) = 0 := by
  have hker : ∀ x : Nat → K,
      (∀ e < ws.nEdges, ∑ f ∈ Finset.range ws.nEdges, ws.l1 e f * x f = 0) ↔
        ws.l1Matrix.mulVec (fun e => x e) = 0 := by
    intro x
    constructor
    · intro hx
      funext e
      exact (Finset.sum_range fun f => ws.l1 e f * x f).symm.trans (hx e e.isLt)
    · intro hx e he
      rw [Finset.sum_range]
      exact congrFun hx ⟨e, he⟩
  constructor
  · intro h
    refine ⟨(hker gamma).mp h.kernel, fun y hy => ?_⟩
    let x : Nat → K := fun e => if he : e < ws.nEdges then y ⟨e, he⟩ else 0
    have hxy : (fun e : Fin ws.nEdges => x e) = y := by
      funext e
      exact dif_pos e.isLt
    have horth := h.orthogonal x ((hker x).mpr (by rw [hxy]; exact hy))
    rw [Finset.sum_range] at horth
    rw [← hxy]
    exact horth
  · rintro ⟨hg, horth⟩
    refine ⟨(hker gamma).mpr hg, fun x hx => ?_⟩
    rw [Finset.sum_range]
    exact horth _ ((hker x).mp hx)

variable [IsStrictOrderedRing K]

theorem kHarmonicThreshold_pos : 0 < kHarmonicThreshold K :=
  one_div_pos.mpr (Nat.cast_pos.mpr (by decide))

/-- `n_harmonic_dims` is never below the dimension of the kernel of `L1`.  It is that
dimension, and `d_gamma` is the orthogonal projection on the kernel for every flow,
exactly when no eigenvalue but zero lies below the threshold. -/
theorem harmonicProjection_iff {ws : HodgeWorkspace K} {vectors values : Nat → K}
    (h : Ssyevd ws.nEdges ws.l1 vectors values) :
    Module.finrank K (LinearMap.ker ws.l1Matrix.mulVecLin) ≤
        countHarmonicDims values ws.nEdges ∧
      (Module.finrank K (LinearMap.ker ws.l1Matrix.mulVecLin) =
          countHarmonicDims values ws.nEdges ↔
        ∀ k < ws.nEdges, |values k| < kHarmonicThreshold K → values k = 0) ∧
      ((∀ omega, ws.IsHarmonicProjection omega (ws.gamma vectors values omega)) ↔
        ∀ k < ws.nEdges, |values k| < kHarmonicThreshold K → values k = 0) := by
  have hbasis := h.isEigenbasis
  have hkeep : ∀ k : Fin ws.nEdges, values k = 0 → |values k| < kHarmonicThreshold K := by
    intro k hk
    rw [hk, abs_zero]
    exact kHarmonicThreshold_pos
  have hfin : (∀ k < ws.nEdges, |values k| < kHarmonicThreshold K → values k = 0) ↔
      ∀ k : Fin ws.nEdges, |values k| < kHarmonicThreshold K → values k = 0 :=
    ⟨fun hk k => hk k k.isLt, fun hk k hlt => hk ⟨k, hlt⟩⟩
  have hdim : Module.finrank K (LinearMap.ker ws.l1Matrix.mulVecLin) =
      Fintype.card {k : Fin ws.nEdges // values k = 0} := hbasis.finrank_ker
  rw [hfin, hdim, countHarmonicDims_eq]
  refine ⟨Fintype.card_subtype_mono _ _ hkeep, ?_, ?_⟩
  · constructor
    · intro hcard k hk
      by_contra hne
      have hlt : Fintype.card {k : Fin ws.nEdges // values k = 0} <
          Fintype.card {k : Fin ws.nEdges // |values k| < kHarmonicThreshold K} := by
        rw [Fintype.card_subtype, Fintype.card_subtype]
        refine Finset.card_lt_card (Finset.ssubset_iff_of_subset ?_ |>.mpr ⟨k, ?_, ?_⟩)
        · intro j hj
          exact Finset.mem_filter.mpr ⟨Finset.mem_univ j, hkeep j (Finset.mem_filter.mp hj).2⟩
        · exact Finset.mem_filter.mpr ⟨Finset.mem_univ k, hk⟩
        · exact fun hmem => hne (Finset.mem_filter.mp hmem).2
      exact hlt.ne hcard
    · intro hzero
      exact Fintype.card_congr (Equiv.subtypeEquivRight fun k => ⟨hkeep k, hzero k⟩)
  · rw [← hbasis.project_iff (fun k => |values k| < kHarmonicThreshold K) hkeep]
    have hgamma : ∀ omega : Nat → K, (fun e : Fin ws.nEdges => ws.gamma vectors values omega e) =
        Eigenbasis.project (modes ws.nEdges vectors)
          (fun k => |values k| < kHarmonicThreshold K) fun f => omega f :=
      fun omega => funext fun e => kernelHarmonicProjection_eq omega _ e
    constructor
    · intro hproj x
      let omega : Nat → K := fun e => if he : e < ws.nEdges then x ⟨e, he⟩ else 0
      have hx : (fun e : Fin ws.nEdges => omega e) = x := by
        funext e
        exact dif_pos e.isLt
      have hpart := (ws.isHarmonicProjection_iff _ _).mp (hproj omega)
      rw [hgamma, hx] at hpart
      exact hpart
    · intro hproj omega
      rw [ws.isHarmonicProjection_iff, hgamma]
      exact hproj _

/-- The four nodes of a square, whose only harmonic flow goes round it. -/
def square : HodgeWorkspace ℚ := .build ℚ 4 [(0, 1), (1, 2), (2, 3), (0, 3)] []

def squareVectors (a : Nat) : ℚ :=
  [1, 1, 1, -1, 1, 1, -1, 1, 1, -1, -1, -1, 1, -1, 1, 1].getD a 0 / ((2 : Nat) : ℚ)

def squareValues (k : Nat) : ℚ := [0, 2, 2, 4].getD k 0

theorem harmonicProjection_square :
    Module.finrank ℚ (LinearMap.ker square.l1Matrix.mulVecLin) = 1 ∧
      ∀ omega, square.IsHarmonicProjection omega
        (square.gamma squareVectors squareValues omega) := by
  have h : Ssyevd square.nEdges square.l1 squareVectors squareValues :=
    ⟨by decide +kernel, by decide +kernel⟩
  have hzero : ∀ k < square.nEdges,
      |squareValues k| < kHarmonicThreshold ℚ → squareValues k = 0 := by decide +kernel
  have hcount : countHarmonicDims squareValues square.nEdges = 1 := by decide +kernel
  obtain ⟨-, hdim, hproj⟩ := harmonicProjection_iff h
  exact ⟨(hdim.mpr hzero).trans hcount, hproj.mpr hzero⟩

end HoloMarket
