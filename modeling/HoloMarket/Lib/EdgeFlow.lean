import Mathlib.Algebra.BigOperators.Ring.Finset
import Mathlib.Algebra.Order.BigOperators.Ring.Finset
import Mathlib.Algebra.Order.Ring.Unbundled.Basic
import Mathlib.Tactic.Ring

/-!
# Flows on the edges of a complex

For matrices `A` (nodes by edges) and `B` (edges by faces) over an ordered ring:
the divergence and gradient of `A`, the kernel of `Aᵀ A + B Bᵀ`, and what is left
of a flow when `Aᵀ A` of it is taken away.
-/

namespace HoloMarket
namespace EdgeFlow

variable {V E T K : Type*} [CommRing K]

section
variable (nodes : Finset V) (arcs : Finset E) (faces : Finset T)
variable (A : V → E → K) (B : E → T → K)

def div (x : E → K) (v : V) : K := ∑ e ∈ arcs, A v e * x e

def grad (a : V → K) (e : E) : K := ∑ v ∈ nodes, A v e * a v

def curl (x : E → K) (t : T) : K := ∑ e ∈ arcs, B e t * x e

/-- `Aᵀ A + B Bᵀ`. -/
def laplacian (e f : E) : K :=
  (∑ v ∈ nodes, A v e * A v f) + ∑ t ∈ faces, B e t * B f t

def Harmonic (x : E → K) : Prop :=
  ∀ e ∈ arcs, ∑ f ∈ arcs, laplacian nodes faces A B e f * x f = 0

/-- `g` is the orthogonal projection of `w` on the harmonic flows. -/
structure IsHarmonicPart (w g : E → K) : Prop where
  harmonic : Harmonic nodes arcs faces A B g
  orthogonal : ∀ h, Harmonic nodes arcs faces A B h → ∑ e ∈ arcs, h e * (w e - g e) = 0

/-- The flow less `Aᵀ A` of it. -/
def residual (x : E → K) (e : E) : K := x e - grad nodes A (div arcs A x) e

end

variable {nodes : Finset V} {arcs : Finset E} {faces : Finset T}
variable {A : V → E → K} {B : E → T → K}

theorem div_congr {x y : E → K} (h : ∀ e ∈ arcs, x e = y e) (v : V) :
    div arcs A x v = div arcs A y v :=
  Finset.sum_congr rfl fun e he => by rw [h e he]

theorem grad_congr {a b : V → K} (h : ∀ v ∈ nodes, a v = b v) (e : E) :
    grad nodes A a e = grad nodes A b e :=
  Finset.sum_congr rfl fun v hv => by rw [h v hv]

/-- Divergence and gradient are adjoint. -/
theorem sum_mul_grad (x : E → K) (a : V → K) :
    ∑ e ∈ arcs, x e * grad nodes A a e = ∑ v ∈ nodes, a v * div arcs A x v := by
  unfold grad div
  simp only [Finset.mul_sum]
  rw [Finset.sum_comm]
  exact Finset.sum_congr rfl fun v _ => Finset.sum_congr rfl fun e _ => by ring

theorem sum_mul_sum_mul (x : E → K) (c : E → K) :
    ∑ e ∈ arcs, x e * ∑ f ∈ arcs, c e * c f * x f = (∑ e ∈ arcs, c e * x e) ^ 2 := by
  rw [sq, Finset.sum_mul]
  refine Finset.sum_congr rfl fun e _ => ?_
  rw [Finset.mul_sum, Finset.mul_sum]
  exact Finset.sum_congr rfl fun f _ => by ring

/-- The quadratic form of the Laplacian is a sum of squares. -/
theorem sum_mul_laplacian (x : E → K) :
    ∑ e ∈ arcs, x e * ∑ f ∈ arcs, laplacian nodes faces A B e f * x f =
      (∑ v ∈ nodes, div arcs A x v ^ 2) + ∑ t ∈ faces, curl arcs B x t ^ 2 := by
  have hsplit : ∀ e, ∑ f ∈ arcs, laplacian nodes faces A B e f * x f =
      (∑ v ∈ nodes, ∑ f ∈ arcs, A v e * A v f * x f) +
        ∑ t ∈ faces, ∑ f ∈ arcs, B e t * B f t * x f := by
    intro e
    simp only [laplacian, add_mul, Finset.sum_mul, Finset.sum_add_distrib]
    rw [Finset.sum_comm, Finset.sum_comm (s := arcs) (t := faces)]
  simp only [hsplit, mul_add, Finset.mul_sum, Finset.sum_add_distrib]
  rw [Finset.sum_comm, Finset.sum_comm (s := arcs) (t := faces)]
  simp only [← Finset.mul_sum]
  congr 1
  · exact Finset.sum_congr rfl fun v _ => sum_mul_sum_mul x (A v)
  · exact Finset.sum_congr rfl fun t _ => sum_mul_sum_mul x fun e => B e t

variable [LinearOrder K] [IsStrictOrderedRing K]

/-- A harmonic flow has no divergence, whatever the faces are. -/
theorem Harmonic.div_eq_zero {x : E → K} (h : Harmonic nodes arcs faces A B x) :
    ∀ v ∈ nodes, div arcs A x v = 0 := by
  have hzero : (∑ v ∈ nodes, div arcs A x v ^ 2) + ∑ t ∈ faces, curl arcs B x t ^ 2 = 0 := by
    rw [← sum_mul_laplacian]
    exact Finset.sum_eq_zero fun e he => by rw [h e he, mul_zero]
  have hnodes : 0 ≤ ∑ v ∈ nodes, div arcs A x v ^ 2 := Finset.sum_nonneg fun v _ => sq_nonneg _
  have hfaces : 0 ≤ ∑ t ∈ faces, curl arcs B x t ^ 2 := Finset.sum_nonneg fun t _ => sq_nonneg _
  have hdiv := ((add_eq_zero_iff_of_nonneg hnodes hfaces).mp hzero).1
  intro v hv
  have hv' := (Finset.sum_eq_zero_iff_of_nonneg fun v _ => sq_nonneg _).mp hdiv v hv
  exact pow_eq_zero_iff two_ne_zero |>.mp hv'

theorem grad_eq_zero {a : V → K} (h : ∀ v ∈ nodes, div arcs A (grad nodes A a) v = 0) :
    ∀ e ∈ arcs, grad nodes A a e = 0 := by
  have hzero : ∑ e ∈ arcs, grad nodes A a e * grad nodes A a e = 0 := by
    rw [sum_mul_grad]
    exact Finset.sum_eq_zero fun v hv => by rw [h v hv, mul_zero]
  intro e he
  have he' := (Finset.sum_eq_zero_iff_of_nonneg fun e _ => mul_self_nonneg _).mp hzero e he
  exact mul_self_eq_zero.mp he'

namespace IsHarmonicPart

variable {w g : E → K} (hg : IsHarmonicPart nodes arcs faces A B w g)
include hg

theorem div_sub {v : V} (hv : v ∈ nodes) :
    div arcs A (fun e => w e - g e) v = div arcs A w v := by
  have hsub : div arcs A (fun e => w e - g e) v = div arcs A w v - div arcs A g v := by
    unfold div
    simp only [mul_sub, Finset.sum_sub_distrib]
  rw [hsub, hg.harmonic.div_eq_zero v hv, sub_zero]

/-- The divergence of what is left does not depend on the projection. -/
theorem div_residual {v : V} (hv : v ∈ nodes) :
    div arcs A (residual nodes arcs A fun e => w e - g e) v =
      div arcs A w v - div arcs A (grad nodes A (div arcs A w)) v := by
  have hgrad : ∀ e, grad nodes A (div arcs A fun e => w e - g e) e =
      grad nodes A (div arcs A w) e := grad_congr fun u hu => hg.div_sub hu
  have hsub : div arcs A (residual nodes arcs A fun e => w e - g e) v =
      div arcs A (fun e => w e - g e) v - div arcs A (grad nodes A (div arcs A w)) v := by
    unfold residual
    simp only [hgrad]
    unfold div
    simp only [mul_sub, Finset.sum_sub_distrib]
  rw [hsub, hg.div_sub hv]

theorem eq_zero_of_gradient {a : V → K} (hw : ∀ e ∈ arcs, w e = grad nodes A a e) :
    ∀ e ∈ arcs, g e = 0 := by
  have horth : ∑ e ∈ arcs, g e * w e = ∑ e ∈ arcs, g e * g e := by
    have h := hg.orthogonal g hg.harmonic
    simp only [mul_sub, Finset.sum_sub_distrib] at h
    exact sub_eq_zero.mp h
  have hzero : ∑ e ∈ arcs, g e * g e = 0 := by
    calc ∑ e ∈ arcs, g e * g e = ∑ e ∈ arcs, g e * w e := horth.symm
      _ = ∑ e ∈ arcs, g e * grad nodes A a e :=
          Finset.sum_congr rfl fun e he => by rw [hw e he]
      _ = ∑ v ∈ nodes, a v * div arcs A g v := sum_mul_grad g a
      _ = 0 := Finset.sum_eq_zero fun v hv => by
          rw [hg.harmonic.div_eq_zero v hv, mul_zero]
  intro e he
  have he' := (Finset.sum_eq_zero_iff_of_nonneg fun e _ => mul_self_nonneg _).mp hzero e he
  exact mul_self_eq_zero.mp he'

/-- What is left of a gradient is a gradient, so it vanishes when it has no
divergence. -/
theorem residual_eq_zero_of_gradient {a : V → K} (hw : ∀ e ∈ arcs, w e = grad nodes A a e)
    (hdiv : ∀ v ∈ nodes, div arcs A (residual nodes arcs A fun e => w e - g e) v = 0) :
    ∀ e ∈ arcs, residual nodes arcs A (fun e => w e - g e) e = 0 := by
  have hres : ∀ e ∈ arcs, residual nodes arcs A (fun e => w e - g e) e =
      grad nodes A (fun v => a v - div arcs A (fun e => w e - g e) v) e := by
    intro e he
    show w e - g e - grad nodes A (div arcs A fun e => w e - g e) e = _
    rw [hg.eq_zero_of_gradient hw e he, hw e he, sub_zero]
    unfold grad
    simp only [mul_sub, Finset.sum_sub_distrib]
  intro e he
  rw [hres e he]
  refine grad_eq_zero (fun v hv => ?_) e he
  rw [← hdiv v hv]
  exact div_congr (fun e he => (hres e he).symm) v

end IsHarmonicPart
end EdgeFlow
end HoloMarket
