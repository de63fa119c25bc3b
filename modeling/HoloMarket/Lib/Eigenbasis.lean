import Mathlib.LinearAlgebra.Matrix.NonsingularInverse
import Mathlib.LinearAlgebra.Matrix.Rank

/-!
# Eigenbasis: projections read off an orthonormal eigenbasis

The rows of `V` are orthonormal eigenvectors of `A` with the eigenvalues `d`.  The
kernel of `A` is spanned by the rows of eigenvalue zero, and a projection that keeps
a set of rows is the projection on the kernel exactly when it keeps these.
-/

namespace HoloMarket
namespace Eigenbasis

open Matrix

variable {ι K : Type*} [Fintype ι] [DecidableEq ι] [Field K]

/-- The rows of `V` are an orthonormal basis of eigenvectors. -/
structure IsEigenbasis (A V : Matrix ι ι K) (d : ι → K) : Prop where
  eigen : A * Vᵀ = Vᵀ * diagonal d
  orthonormal : V * Vᵀ = 1

/-- The combination of the kept rows with the coordinates of `x`. -/
def project (V : Matrix ι ι K) (keep : ι → Prop) [DecidablePred keep] (x : ι → K) : ι → K :=
  Vᵀ *ᵥ fun k => if keep k then (V *ᵥ x) k else 0

namespace IsEigenbasis

variable {A V : Matrix ι ι K} {d : ι → K} (h : IsEigenbasis A V d)
include h

theorem complete : Vᵀ * V = 1 := mul_eq_one_comm.mp h.orthonormal

theorem eq_mul : A = Vᵀ * (diagonal d * V) := by
  calc A = A * (Vᵀ * V) := by rw [h.complete, Matrix.mul_one]
    _ = Vᵀ * (diagonal d * V) := by rw [← Matrix.mul_assoc, h.eigen, Matrix.mul_assoc]

theorem mulVec_transpose_mulVec (x : ι → K) : Vᵀ *ᵥ (V *ᵥ x) = x := by
  rw [mulVec_mulVec, h.complete, one_mulVec]

theorem mulVec_mulVec_transpose (c : ι → K) : V *ᵥ (Vᵀ *ᵥ c) = c := by
  rw [mulVec_mulVec, h.orthonormal, one_mulVec]

/-- In the coordinates of the basis `A` multiplies by the eigenvalues. -/
theorem coord_mulVec (x : ι → K) (k : ι) : (V *ᵥ (A *ᵥ x)) k = d k * (V *ᵥ x) k := by
  have hVA : V * A = diagonal d * V := by
    rw [h.eq_mul, ← Matrix.mul_assoc, h.orthonormal, Matrix.one_mul]
  rw [mulVec_mulVec, hVA, ← mulVec_mulVec, mulVec_diagonal]

theorem mulVec_eq_zero_iff (x : ι → K) : A *ᵥ x = 0 ↔ ∀ k, d k ≠ 0 → (V *ᵥ x) k = 0 := by
  constructor
  · intro hx k hk
    have hcoord := h.coord_mulVec x k
    rw [hx, mulVec_zero, Pi.zero_apply] at hcoord
    exact (mul_eq_zero.mp hcoord.symm).resolve_left hk
  · intro hx
    have hzero : V *ᵥ (A *ᵥ x) = 0 := by
      funext k
      rw [h.coord_mulVec, Pi.zero_apply]
      by_cases hk : d k = 0
      · rw [hk, zero_mul]
      · rw [hx k hk, mul_zero]
    rw [← h.mulVec_transpose_mulVec (A *ᵥ x), hzero, mulVec_zero]

theorem coord_project (keep : ι → Prop) [DecidablePred keep] (x : ι → K) (k : ι) :
    (V *ᵥ project V keep x) k = if keep k then (V *ᵥ x) k else 0 := by
  unfold project
  rw [h.mulVec_mulVec_transpose]

theorem dotProduct_eq (x y : ι → K) : x ⬝ᵥ y = (V *ᵥ x) ⬝ᵥ (V *ᵥ y) := by
  rw [dotProduct_mulVec, vecMul_mulVec, ← mulVec_transpose, h.complete, transpose_one,
    one_mulVec]

/-- The row `k` has the coordinates `Pi.single k 1`. -/
theorem coord_row (k : ι) : V *ᵥ V k = Pi.single k 1 := by
  have hrow : V k = Vᵀ *ᵥ Pi.single k 1 := by
    rw [mulVec_single_one]
    rfl
  rw [hrow, h.mulVec_mulVec_transpose]

/-- What is kept lies in the kernel, and what is dropped is orthogonal to it, for
every vector exactly when the rows that are kept are those of eigenvalue zero. -/
theorem project_iff (keep : ι → Prop) [DecidablePred keep] (hkeep : ∀ k, d k = 0 → keep k) :
    (∀ x, A *ᵥ project V keep x = 0 ∧
        ∀ y, A *ᵥ y = 0 → y ⬝ᵥ (x - project V keep x) = 0) ↔
      ∀ k, keep k → d k = 0 := by
  constructor
  · intro hproj k hk
    by_contra hne
    have hcoord := (h.mulVec_eq_zero_iff _).mp (hproj (V k)).1 k hne
    rw [h.coord_project, if_pos hk, h.coord_row, Pi.single_eq_same] at hcoord
    exact one_ne_zero hcoord
  · intro hzero x
    constructor
    · refine (h.mulVec_eq_zero_iff _).mpr fun k hk => ?_
      rw [h.coord_project, if_neg fun hkept => hk (hzero k hkept)]
    · intro y hy
      rw [h.dotProduct_eq, mulVec_sub]
      refine Finset.sum_eq_zero fun k _ => ?_
      rw [Pi.sub_apply, h.coord_project]
      by_cases hk : keep k
      · rw [if_pos hk, sub_self, mul_zero]
      · rw [(h.mulVec_eq_zero_iff y).mp hy k fun hd => hk (hkeep k hd), zero_mul]

/-- The dimension of the kernel is the number of eigenvalues that are zero. -/
theorem finrank_ker [DecidableEq K] :
    Module.finrank K (LinearMap.ker A.mulVecLin) = Fintype.card {k // d k = 0} := by
  have hV : IsUnit V.det := (isUnit_iff_isUnit_det V).mp (IsUnit.of_mul_eq_one Vᵀ h.orthonormal)
  have hVt : IsUnit Vᵀ.det := by rwa [det_transpose]
  have hrank : A.rank = Fintype.card {k // d k ≠ 0} := by
    rw [h.eq_mul, rank_mul_eq_right_of_isUnit_det _ _ hVt, rank_mul_eq_left_of_isUnit_det _ _ hV,
      rank_diagonal]
  have hnullity := A.mulVecLin.finrank_range_add_finrank_ker
  have hcompl := Fintype.card_subtype_compl fun k => d k = 0
  have hle := Fintype.card_subtype_le fun k => d k = 0
  rw [Module.finrank_fintype_fun_eq_card] at hnullity
  rw [Matrix.rank] at hrank
  simp only [ne_eq] at hrank
  omega

end IsEigenbasis
end Eigenbasis
end HoloMarket
