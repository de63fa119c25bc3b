import Mathlib.Combinatorics.SimpleGraph.Connectivity.Finite
import Mathlib.Data.Real.Basic
import Mathlib.LinearAlgebra.Dimension.Constructions
import Mathlib.LinearAlgebra.Matrix.ToLin
import Mathlib.Tactic.Linarith

/-!
# The normalized Laplacian of a weighted graph

`1 - S A S` for symmetric weights `A` and scales `S` that are the inverse roots of the
degrees, or zero.  Its quadratic form lies between zero and twice the square of the
length, and its kernel has one dimension for each component without a zero scale.
-/

namespace HoloMarket
namespace WeightedLaplacian

open Matrix

variable {V : Type*} [Fintype V] [DecidableEq V]

def degree {K : Type*} [AddCommMonoid K] (A : Matrix V V K) (i : V) : K := ∑ j, A i j

def normalized {K : Type*} [Ring K] (A : Matrix V V K) (s : V → K) : Matrix V V K :=
  1 - diagonal s * A * diagonal s

/-- Symmetric weights that are not negative, and the scales that go with them. -/
structure Scaled (A : Matrix V V ℝ) (s : V → ℝ) : Prop where
  symm : ∀ i j, A i j = A j i
  nonneg : ∀ i j, 0 ≤ A i j
  scale : ∀ i, s i ≠ 0 → s i * s i * degree A i = 1

/-- The nodes that a weight joins. -/
def graph (A : Matrix V V ℝ) : SimpleGraph V := SimpleGraph.fromRel fun i j => 0 < A i j

/-- A component none of whose nodes has the scale zero. -/
def Sound (A : Matrix V V ℝ) (s : V → ℝ) (c : (graph A).ConnectedComponent) : Prop :=
  ∀ i, (graph A).connectedComponentMk i = c → s i ≠ 0

variable {A : Matrix V V ℝ} {s : V → ℝ}

theorem mulVec_normalized (A : Matrix V V ℝ) (s x : V → ℝ) (i : V) :
    (normalized A s *ᵥ x) i = x i - s i * ∑ j, A i j * (s j * x j) := by
  unfold normalized
  rw [sub_mulVec, one_mulVec, ← mulVec_mulVec, ← mulVec_mulVec]
  show x i - (diagonal s *ᵥ (A *ᵥ (diagonal s *ᵥ x))) i = _
  rw [mulVec_diagonal]
  show x i - s i * ∑ j, A i j * (diagonal s *ᵥ x) j = _
  simp only [mulVec_diagonal]

/-- The squares of the differences along the weights. -/
def energy (A : Matrix V V ℝ) (y : V → ℝ) : ℝ := ∑ i, ∑ j, A i j * (y i - y j) ^ 2

omit [DecidableEq V] in
theorem energy_nonneg (hA : ∀ i j, 0 ≤ A i j) (y : V → ℝ) : 0 ≤ energy A y :=
  Finset.sum_nonneg fun i _ => Finset.sum_nonneg fun j _ => mul_nonneg (hA i j) (sq_nonneg _)

omit [DecidableEq V] in
theorem energy_eq (hA : ∀ i j, A i j = A j i) (y : V → ℝ) (c : ℝ) (hc : c ^ 2 = 1) :
    ∑ i, ∑ j, A i j * (y i - c * y j) ^ 2 =
      2 * ∑ i, degree A i * y i ^ 2 - 2 * c * ∑ i, y i * ∑ j, A i j * y j := by
  have hterm : ∀ i j, A i j * (y i - c * y j) ^ 2 =
      A i j * y i ^ 2 - 2 * c * (y i * (A i j * y j)) + A j i * y j ^ 2 := by
    intro i j
    rw [← hA i j]
    calc A i j * (y i - c * y j) ^ 2
        = A i j * y i ^ 2 - 2 * c * (y i * (A i j * y j)) + c ^ 2 * (A i j * y j ^ 2) := by ring
      _ = _ := by rw [hc, one_mul]
  simp only [hterm, Finset.sum_add_distrib, Finset.sum_sub_distrib]
  rw [Finset.sum_comm (f := fun i j => A j i * y j ^ 2)]
  simp only [← Finset.sum_mul, ← Finset.mul_sum]
  unfold degree
  ring

/-- What the nodes with the scale zero have of the square of the length. -/
noncomputable def lost (s x : V → ℝ) : ℝ := ∑ i, if s i = 0 then x i ^ 2 else 0

omit [DecidableEq V] in
theorem lost_nonneg (s x : V → ℝ) : 0 ≤ lost s x := by
  refine Finset.sum_nonneg fun i _ => ?_
  split
  · exact sq_nonneg _
  · exact le_rfl

omit [DecidableEq V] in
theorem sum_sq_eq (h : Scaled A s) (x : V → ℝ) :
    ∑ i, x i ^ 2 = lost s x + ∑ i, degree A i * (s i * x i) ^ 2 := by
  unfold lost
  rw [← Finset.sum_add_distrib]
  refine Finset.sum_congr rfl fun i _ => ?_
  by_cases hi : s i = 0
  · rw [if_pos hi, hi]
    ring
  · rw [if_neg hi, zero_add]
    calc x i ^ 2 = s i * s i * degree A i * x i ^ 2 := by rw [h.scale i hi, one_mul]
      _ = degree A i * (s i * x i) ^ 2 := by ring

theorem form_eq_mul (A : Matrix V V ℝ) (s x : V → ℝ) :
    x ⬝ᵥ (normalized A s *ᵥ x) =
      ∑ i, x i ^ 2 - ∑ i, s i * x i * ∑ j, A i j * (s j * x j) := by
  unfold dotProduct
  rw [← Finset.sum_sub_distrib]
  refine Finset.sum_congr rfl fun i _ => ?_
  rw [mulVec_normalized]
  ring

theorem form_eq (h : Scaled A s) (x : V → ℝ) :
    x ⬝ᵥ (normalized A s *ᵥ x) = lost s x + energy A (fun i => s i * x i) / 2 := by
  have henergy := energy_eq h.symm (fun i => s i * x i) 1 (one_pow 2)
  simp only [one_mul] at henergy
  rw [form_eq_mul, sum_sq_eq h, energy, henergy]
  ring

theorem form_nonneg (h : Scaled A s) (x : V → ℝ) : 0 ≤ x ⬝ᵥ (normalized A s *ᵥ x) := by
  rw [form_eq h]
  have hlost := lost_nonneg s x
  have henergy := energy_nonneg h.nonneg fun i => s i * x i
  linarith

theorem form_le (h : Scaled A s) (x : V → ℝ) :
    x ⬝ᵥ (normalized A s *ᵥ x) ≤ 2 * ∑ i, x i ^ 2 := by
  have hsums := energy_eq h.symm (fun i => s i * x i) (-1) (by norm_num)
  have hnonneg : 0 ≤ ∑ i, ∑ j, A i j * (s i * x i - -1 * (s j * x j)) ^ 2 :=
    Finset.sum_nonneg fun i _ => Finset.sum_nonneg fun j _ =>
      mul_nonneg (h.nonneg i j) (sq_nonneg _)
  have hlost := lost_nonneg s x
  have hlength := sum_sq_eq h x
  rw [form_eq_mul]
  linarith

/-! ## The kernel -/

/-- What the kernel asks of a vector. -/
structure Level (A : Matrix V V ℝ) (s x : V → ℝ) : Prop where
  zero : ∀ i, s i = 0 → x i = 0
  joined : ∀ i j, 0 < A i j → s i * x i = s j * x j

theorem mulVec_eq_zero_iff (h : Scaled A s) (x : V → ℝ) :
    normalized A s *ᵥ x = 0 ↔ Level A s x := by
  constructor
  · intro hx
    have hform := form_eq h x
    rw [hx, dotProduct_zero] at hform
    have hlost := lost_nonneg s x
    have henergy := energy_nonneg h.nonneg fun i => s i * x i
    have hlost₀ : lost s x = 0 := by linarith
    have henergy₀ : energy A (fun i => s i * x i) = 0 := by linarith
    constructor
    · intro i hi
      have hterm := (Finset.sum_eq_zero_iff_of_nonneg fun i _ => by
        split
        · exact sq_nonneg _
        · exact le_rfl).mp hlost₀ i (Finset.mem_univ i)
      rw [if_pos hi] at hterm
      exact pow_eq_zero_iff two_ne_zero |>.mp hterm
    · intro i j hij
      have hrow := (Finset.sum_eq_zero_iff_of_nonneg fun i _ => Finset.sum_nonneg fun j _ =>
        mul_nonneg (h.nonneg i j) (sq_nonneg _)).mp henergy₀ i (Finset.mem_univ i)
      have hterm := (Finset.sum_eq_zero_iff_of_nonneg fun j _ =>
        mul_nonneg (h.nonneg i j) (sq_nonneg _)).mp hrow j (Finset.mem_univ j)
      rcases mul_eq_zero.mp hterm with hzero | hzero
      · exact absurd hzero hij.ne'
      · exact sub_eq_zero.mp (pow_eq_zero_iff two_ne_zero |>.mp hzero)
  · intro hx
    funext i
    rw [mulVec_normalized, Pi.zero_apply]
    by_cases hi : s i = 0
    · rw [hx.zero i hi, hi]
      ring
    · have hsum : ∑ j, A i j * (s j * x j) = degree A i * (s i * x i) := by
        unfold degree
        rw [Finset.sum_mul]
        refine Finset.sum_congr rfl fun j _ => ?_
        rcases (h.nonneg i j).eq_or_lt with hzero | hpos
        · rw [← hzero, zero_mul, zero_mul]
        · rw [hx.joined i j hpos]
      calc x i - s i * ∑ j, A i j * (s j * x j)
          = x i - s i * s i * degree A i * x i := by rw [hsum]; ring
        _ = 0 := by rw [h.scale i hi, one_mul, sub_self]

omit [Fintype V] [DecidableEq V] in
theorem Level.reachable (h : ∀ i j, A i j = A j i) {x : V → ℝ} (hx : Level A s x) {i j : V}
    (hij : (graph A).Reachable i j) : s i * x i = s j * x j := by
  obtain ⟨w⟩ := hij
  induction w with
  | nil => rfl
  | cons hadj _ ih =>
    obtain ⟨-, hpos | hpos⟩ := (SimpleGraph.fromRel_adj _ _ _).mp hadj
    · exact (hx.joined _ _ hpos).trans ih
    · exact (hx.joined _ _ (h _ _ ▸ hpos)).trans ih

open Classical in
/-- A value for each sound component, zero on the others. -/
noncomputable def extend (A : Matrix V V ℝ) (s : V → ℝ) (g : {c // Sound A s c} → ℝ)
    (c : (graph A).ConnectedComponent) : ℝ :=
  if h : Sound A s c then g ⟨c, h⟩ else 0

/-- The vector that has these values when it is scaled. -/
noncomputable def spread (A : Matrix V V ℝ) (s : V → ℝ) (g : {c // Sound A s c} → ℝ) (i : V) : ℝ :=
  extend A s g ((graph A).connectedComponentMk i) / s i

omit [Fintype V] [DecidableEq V] in
theorem scaled_spread (g : {c // Sound A s c} → ℝ) (i : V) :
    s i * spread A s g i = extend A s g ((graph A).connectedComponentMk i) := by
  unfold spread
  by_cases hi : s i = 0
  · have hunsound : ¬ Sound A s ((graph A).connectedComponentMk i) := fun h => h i rfl hi
    unfold extend
    rw [hi, zero_mul, dif_neg hunsound]
  · rw [mul_div_cancel₀ _ hi]

omit [Fintype V] [DecidableEq V] in
theorem level_spread (g : {c // Sound A s c} → ℝ) : Level A s (spread A s g) := by
  constructor
  · intro i hi
    unfold spread
    rw [hi, div_zero]
  · intro i j hij
    rw [scaled_spread, scaled_spread]
    by_cases hne : i = j
    · rw [hne]
    · have hadj : (graph A).Adj i j := (SimpleGraph.fromRel_adj _ _ _).mpr ⟨hne, Or.inl hij⟩
      rw [SimpleGraph.ConnectedComponent.sound hadj.reachable]

omit [Fintype V] [DecidableEq V] in
/-- A vector of the kernel is the one that its values on the components make. -/
theorem Level.eq_spread (h : ∀ i j, A i j = A j i) {x : V → ℝ} (hx : Level A s x) (i : V) :
    spread A s (fun c => s c.1.out * x c.1.out) i = x i := by
  unfold spread extend
  by_cases hsound : Sound A s ((graph A).connectedComponentMk i)
  · have hrep : (graph A).Reachable ((graph A).connectedComponentMk i).out i :=
      SimpleGraph.ConnectedComponent.exact (Quot.out_eq _)
    rw [dif_pos hsound]
    show s _ * x _ / s i = x i
    rw [hx.reachable h hrep, mul_div_cancel_left₀ _ (hsound i rfl)]
  · rw [dif_neg hsound, zero_div]
    obtain ⟨j, hj, hzero⟩ : ∃ j, (graph A).connectedComponentMk j =
        (graph A).connectedComponentMk i ∧ s j = 0 := by
      by_contra hall
      exact hsound fun j hj hzero => hall ⟨j, hj, hzero⟩
    have hval := hx.reachable h (SimpleGraph.ConnectedComponent.exact hj)
    rw [hzero, zero_mul] at hval
    rcases mul_eq_zero.mp hval.symm with hi | hi
    · exact (hx.zero i hi).symm
    · exact hi.symm

/-- The kernel has one value for each sound component. -/
noncomputable def kernelEquiv (h : Scaled A s) :
    LinearMap.ker (toLin' (normalized A s)) ≃ₗ[ℝ] ({c // Sound A s c} → ℝ) where
  toFun x c := s c.1.out * x.1 c.1.out
  map_add' x y := by
    funext c
    exact mul_add _ _ _
  map_smul' a x := by
    funext c
    exact mul_left_comm _ _ _
  invFun g := ⟨spread A s g, by
    rw [LinearMap.mem_ker, toLin'_apply, mulVec_eq_zero_iff h]
    exact level_spread g⟩
  left_inv x := by
    have hmem := x.2
    rw [LinearMap.mem_ker, toLin'_apply, mulVec_eq_zero_iff h] at hmem
    exact Subtype.ext (funext (hmem.eq_spread h.symm))
  right_inv g := by
    funext c
    refine (scaled_spread g c.1.out).trans ?_
    have hout : (graph A).connectedComponentMk c.1.out = c.1 := Quot.out_eq _
    rw [hout]
    exact dif_pos c.2

theorem finrank_kernel (h : Scaled A s) :
    Module.finrank ℝ (LinearMap.ker (toLin' (normalized A s))) = Nat.card {c // Sound A s c} := by
  classical
  have hfin : Finite (graph A).ConnectedComponent := inferInstance
  have : Fintype {c // Sound A s c} := Fintype.ofFinite _
  rw [(kernelEquiv h).finrank_eq, Module.finrank_fintype_fun_eq_card, Nat.card_eq_fintype_card]

end WeightedLaplacian
end HoloMarket
