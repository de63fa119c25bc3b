import Mathlib.LinearAlgebra.Matrix.DotProduct
import Mathlib.Order.Lattice

/-!
# PseudoInverse: projections and Hodge parts

A pseudo-inverse of `Aᵀ A` gives the projection on the range of `A`.  Where `C D = 0`
the projections on the ranges of `D` and of `Cᵀ` split a vector into a gradient, a
curl and a harmonic part.
-/

namespace HoloMarket
namespace PseudoInverse

open Matrix

variable {m n p K : Type*} [Fintype m] [Fintype n] [Fintype p]

/-- The Moore-Penrose equations. -/
structure IsMoorePenrose [Ring K] (A : Matrix m n K) (G : Matrix n m K) : Prop where
  mul_mul_self : A * G * A = A
  self_mul_mul : G * A * G = G
  left_symm : (A * G)ᵀ = A * G
  right_symm : (G * A)ᵀ = G * A

section Projection

variable [CommRing K] [LinearOrder K] [IsStrictOrderedRing K]

omit [Fintype m] in
theorem eq_zero_of_mul_transpose {N : Matrix m n K} (h : N * Nᵀ = 0) : N = 0 := by
  have hrow : ∀ i, N i = 0 := by
    intro i
    refine dotProduct_self_eq_zero.mp ?_
    exact congrFun (congrFun h i) i
  funext i
  exact hrow i

variable {A : Matrix m n K} {G : Matrix n n K}

theorem IsMoorePenrose.gram_mul [DecidableEq n] (h : IsMoorePenrose (Aᵀ * A) G) :
    Aᵀ * A * G * Aᵀ = Aᵀ := by
  have hzero : (Aᵀ * A * G - 1) * Aᵀ = 0 := by
    refine eq_zero_of_mul_transpose ?_
    calc (Aᵀ * A * G - 1) * Aᵀ * ((Aᵀ * A * G - 1) * Aᵀ)ᵀ
        = (Aᵀ * A * G * (Aᵀ * A) - Aᵀ * A) * (Aᵀ * A * G - 1)ᵀ := by
          rw [transpose_mul, transpose_transpose, Matrix.mul_assoc, ← Matrix.mul_assoc Aᵀ A,
            ← Matrix.mul_assoc, Matrix.sub_mul, Matrix.one_mul]
      _ = 0 := by rw [h.mul_mul_self, sub_self, Matrix.zero_mul]
  rw [Matrix.sub_mul, Matrix.one_mul] at hzero
  exact sub_eq_zero.mp hzero

/-- What is left of a vector after the projection is orthogonal to the columns of `A`. -/
theorem IsMoorePenrose.transpose_mulVec_sub [DecidableEq n] (h : IsMoorePenrose (Aᵀ * A) G)
    (x : m → K) : Aᵀ *ᵥ (x - A *ᵥ (G *ᵥ (Aᵀ *ᵥ x))) = 0 := by
  rw [mulVec_sub, mulVec_mulVec, mulVec_mulVec, mulVec_mulVec, h.gram_mul, sub_self]

end Projection

/-! ## Hodge parts -/

/-- The three parts of a vector, for a pair of maps whose composite vanishes: one from the
range of `D`, one from the range of `Cᵀ`, one that both kill. -/
structure IsHodge [CommRing K] (D : Matrix m n K) (C : Matrix p m K)
    (x gradient curl harmonic : m → K) : Prop where
  sum : gradient + curl + harmonic = x
  gradient_mem_range : ∃ a, D *ᵥ a = gradient
  curl_mem_range : ∃ b, Cᵀ *ᵥ b = curl
  gradient_curl : gradient ⬝ᵥ curl = 0
  gradient_harmonic : gradient ⬝ᵥ harmonic = 0
  curl_harmonic : curl ⬝ᵥ harmonic = 0
  coclosed : Dᵀ *ᵥ harmonic = 0
  closed : C *ᵥ harmonic = 0

omit [Fintype p] in
/-- A vector that the transpose kills is orthogonal to the range. -/
theorem mulVec_dotProduct_of_transpose [CommRing K] {A : Matrix m n K} {a : n → K} {y : m → K}
    (h : Aᵀ *ᵥ y = 0) : (A *ᵥ a) ⬝ᵥ y = 0 := by
  rw [dotProduct_comm, dotProduct_mulVec, ← mulVec_transpose, h, zero_dotProduct]

variable [CommRing K] [LinearOrder K] [IsStrictOrderedRing K] [DecidableEq n] [DecidableEq p]
  {D : Matrix m n K} {C : Matrix p m K} {G : Matrix n n K} {H : Matrix p p K}

theorem isHodge_of_isMoorePenrose (hzero : C * D = 0) (hG : IsMoorePenrose (Dᵀ * D) G)
    (hH : IsMoorePenrose (C * Cᵀ) H) (x : m → K) :
    IsHodge D C x (D *ᵥ (G *ᵥ (Dᵀ *ᵥ x))) (Cᵀ *ᵥ (H *ᵥ (C *ᵥ x)))
      (x - D *ᵥ (G *ᵥ (Dᵀ *ᵥ x)) - Cᵀ *ᵥ (H *ᵥ (C *ᵥ x))) := by
  have hzero' : Dᵀ * Cᵀ = 0 := by
    rw [← transpose_mul, hzero, transpose_zero]
  have hcoclosed : Dᵀ *ᵥ (x - D *ᵥ (G *ᵥ (Dᵀ *ᵥ x)) - Cᵀ *ᵥ (H *ᵥ (C *ᵥ x))) = 0 := by
    rw [mulVec_sub, hG.transpose_mulVec_sub, mulVec_mulVec, hzero', zero_mulVec, sub_zero]
  have hclosed : C *ᵥ (x - D *ᵥ (G *ᵥ (Dᵀ *ᵥ x)) - Cᵀ *ᵥ (H *ᵥ (C *ᵥ x))) = 0 := by
    have hpart : C *ᵥ (x - Cᵀ *ᵥ (H *ᵥ (C *ᵥ x))) = 0 := by
      have hH' : IsMoorePenrose (Cᵀᵀ * Cᵀ) H := by rwa [transpose_transpose]
      have hproj := hH'.transpose_mulVec_sub x
      rwa [transpose_transpose] at hproj
    rw [sub_right_comm, mulVec_sub, hpart, mulVec_mulVec, hzero, zero_mulVec, sub_zero]
  refine ⟨?_, ⟨_, rfl⟩, ⟨_, rfl⟩, ?_, mulVec_dotProduct_of_transpose hcoclosed, ?_, hcoclosed,
    hclosed⟩
  · rw [sub_sub, add_sub_cancel]
  · refine mulVec_dotProduct_of_transpose ?_
    rw [mulVec_mulVec, hzero', zero_mulVec]
  · refine mulVec_dotProduct_of_transpose ?_
    rwa [transpose_transpose]

end PseudoInverse
end HoloMarket
