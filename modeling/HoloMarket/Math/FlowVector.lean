import Mathlib.Algebra.Order.BigOperators.Group.Finset
import Mathlib.Analysis.SpecialFunctions.Log.Basic
import HoloMarket.Math.CompleteHodge
import HoloMarket.Math.SignalEnergy

/-!
# The flow vector

`kernel_build_flow_vector`.  The value of an edge is a product of two differences, of
log prices and of imbalances, so that it does not change its sign with the direction
of the edge, and its sum over the complete graph is a covariance.  The arithmetic is that of
the reals: in the floats of the kernel the guard of a large price vanishes in the rounding.
-/

namespace HoloMarket

open CompleteComplex

/-- What the device holds of the books, `depth` levels for each instrument. -/
structure GpuLobSnapshot (K : Type*) where
  nInstruments : Nat
  depth : Nat
  bidPrices : Nat → K
  askPrices : Nat → K
  bidQtys : Nat → K
  askQtys : Nat → K

namespace GpuLobSnapshot

section Kernel

variable {K : Type*} [Field K] [LinearOrder K] (snap : GpuLobSnapshot K)

def mid (i d : Nat) : K :=
  (snap.bidPrices (i * snap.depth + d) + snap.askPrices (i * snap.depth + d)) * (1 / (2 : Nat))

def vol (i d : Nat) : K :=
  snap.bidQtys (i * snap.depth + d) + snap.askQtys (i * snap.depth + d)

def imb (i d : Nat) : K :=
  if 1 / (10 ^ 9 : Nat) < snap.vol i d then
    (snap.bidQtys (i * snap.depth + d) - snap.askQtys (i * snap.depth + d)) / snap.vol i d
  else 0

/-- The flow of the edge from `i` to `j`. -/
def flow (log : K → K) (i j : Nat) : K :=
  (List.range snap.depth).foldl (fun flow d =>
    flow + log (snap.mid j d / (snap.mid i d + 1 / (10 ^ 8 : Nat))) *
      (snap.imb i d - snap.imb j d)) 0

/-- `d_omega` after the launch. -/
def kernelBuildFlowVector (log : K → K) (edges : List (Nat × Nat)) (omega : Nat → K) : Nat → K :=
  fun e => match edges[e]? with
    | some (i, j) => snap.flow log i j
    | none => omega e

end Kernel

/-! ## A product of differences -/

variable {snap : GpuLobSnapshot ℝ}

/-- Every book shows prices, and no negative quantity. -/
structure Quoted (snap : GpuLobSnapshot ℝ) : Prop where
  mid : ∀ i < snap.nInstruments, ∀ d < snap.depth, 0 < snap.mid i d
  bid : ∀ i < snap.nInstruments, ∀ d < snap.depth, 0 ≤ snap.bidQtys (i * snap.depth + d)
  ask : ∀ i < snap.nInstruments, ∀ d < snap.depth, 0 ≤ snap.askQtys (i * snap.depth + d)

noncomputable def logMid (snap : GpuLobSnapshot ℝ) (i d : Nat) : ℝ := Real.log (snap.mid i d)

/-- What the guard against a zero price adds to a log price. -/
noncomputable def guard (snap : GpuLobSnapshot ℝ) (i d : Nat) : ℝ :=
  Real.log (snap.mid i d + 1 / (10 ^ 8 : Nat)) - snap.logMid i d

/-- The guard against the price. -/
noncomputable def slack (snap : GpuLobSnapshot ℝ) (i d : Nat) : ℝ :=
  1 / (10 ^ 8 : Nat) / snap.mid i d

theorem abs_imb_le (h : snap.Quoted) {i d : Nat} (hi : i < snap.nInstruments)
    (hd : d < snap.depth) : |snap.imb i d| ≤ 1 := by
  have hbid := h.bid i hi d hd
  have hask := h.ask i hi d hd
  unfold imb
  split
  case isTrue hvol =>
    have hpos : 0 < snap.vol i d := lt_trans (by norm_num) hvol
    rw [abs_div, abs_of_pos hpos, div_le_one hpos, abs_le]
    unfold vol
    constructor <;> linarith
  case isFalse => simp

theorem abs_imb_sub_le (h : snap.Quoted) {i j d : Nat} (hi : i < snap.nInstruments)
    (hj : j < snap.nInstruments) (hd : d < snap.depth) : |snap.imb i d - snap.imb j d| ≤ 2 := by
  have htri := abs_sub (snap.imb i d) (snap.imb j d)
  have hi' := abs_imb_le h hi hd
  have hj' := abs_imb_le h hj hd
  linarith

theorem guard_bounds (h : snap.Quoted) {i d : Nat} (hi : i < snap.nInstruments)
    (hd : d < snap.depth) : 0 ≤ snap.guard i d ∧ snap.guard i d ≤ snap.slack i d := by
  have hmid := h.mid i hi d hd
  have hguard : (0 : ℝ) < 1 / (10 ^ 8 : Nat) := by norm_num
  unfold guard logMid slack
  constructor
  · exact sub_nonneg.mpr (Real.log_le_log hmid (by linarith))
  · rw [← Real.log_div (by linarith) hmid.ne', add_div, div_self hmid.ne']
    have hle := Real.log_le_sub_one_of_pos
      (show 0 < 1 + 1 / ((10 ^ 8 : Nat) : ℝ) / snap.mid i d by positivity)
    linarith

theorem flow_eq (h : snap.Quoted) {i j : Nat} (hi : i < snap.nInstruments)
    (hj : j < snap.nInstruments) :
    snap.flow Real.log i j = ∑ d ∈ Finset.range snap.depth,
      (snap.logMid j d - snap.logMid i d - snap.guard i d) * (snap.imb i d - snap.imb j d) := by
  unfold flow
  rw [foldl_add_eq_sum]
  refine Finset.sum_congr rfl fun d hd => ?_
  have hd' := Finset.mem_range.mp hd
  have hmi := h.mid i hi d hd'
  have hmj := h.mid j hj d hd'
  have hguard : (0 : ℝ) < 1 / (10 ^ 8 : Nat) := by norm_num
  rw [Real.log_div hmj.ne' (by linarith)]
  unfold guard logMid
  ring

/-! ## The direction of an edge -/

theorem abs_flow_sub_le (h : snap.Quoted) {i j : Nat} (hi : i < snap.nInstruments)
    (hj : j < snap.nInstruments) :
    |snap.flow Real.log i j - snap.flow Real.log j i| ≤
      ∑ d ∈ Finset.range snap.depth, 2 * (snap.slack i d + snap.slack j d) := by
  rw [flow_eq h hi hj, flow_eq h hj hi, ← Finset.sum_sub_distrib]
  refine (Finset.abs_sum_le_sum_abs _ _).trans (Finset.sum_le_sum fun d hd => ?_)
  have hd' := Finset.mem_range.mp hd
  obtain ⟨hi₀, hi₁⟩ := guard_bounds h hi hd'
  obtain ⟨hj₀, hj₁⟩ := guard_bounds h hj hd'
  have himb := abs_imb_sub_le h hi hj hd'
  have hdiff : (snap.logMid j d - snap.logMid i d - snap.guard i d) *
        (snap.imb i d - snap.imb j d) -
      (snap.logMid i d - snap.logMid j d - snap.guard j d) * (snap.imb j d - snap.imb i d) =
      -(snap.guard i d + snap.guard j d) * (snap.imb i d - snap.imb j d) := by ring
  rw [hdiff, abs_mul, abs_neg, abs_of_nonneg (add_nonneg hi₀ hj₀), mul_comm]
  exact mul_le_mul himb (add_le_add hi₁ hj₁) (add_nonneg hi₀ hj₀) (by norm_num)

/-! ## The sum over the complete graph -/

/-- The covariance of the log prices and the imbalances at a level. -/
noncomputable def covariance (snap : GpuLobSnapshot ℝ) (d : Nat) : ℝ :=
  let n := snap.nInstruments
  (∑ i ∈ Finset.range n, snap.logMid i d * snap.imb i d) / n -
    (∑ i ∈ Finset.range n, snap.logMid i d) / n * ((∑ i ∈ Finset.range n, snap.imb i d) / n)

theorem sq_mul_covariance (snap : GpuLobSnapshot ℝ) (d : Nat) :
    (snap.nInstruments : ℝ) ^ 2 * snap.covariance d = pairSum snap.nInstruments fun i j =>
      (snap.logMid j d - snap.logMid i d) * (snap.imb j d - snap.imb i d) := by
  rw [pairSum_sub_mul_sub _ (fun i => snap.logMid i d) fun i => snap.imb i d]
  unfold covariance
  cases Nat.eq_zero_or_pos snap.nInstruments with
  | inl hzero => simp [hzero]
  | inr hpos =>
    have hne : (snap.nInstruments : ℝ) ≠ 0 := Nat.cast_ne_zero.mpr hpos.ne'
    field_simp

theorem abs_pairSum_guard_le (h : snap.Quoted) {d : Nat} (hd : d < snap.depth) :
    |pairSum snap.nInstruments fun i j => snap.guard i d * (snap.imb j d - snap.imb i d)| ≤
      2 * snap.nInstruments * ∑ i ∈ Finset.range snap.nInstruments, snap.slack i d := by
  have hterm : ∀ i < snap.nInstruments, ∀ j < snap.nInstruments,
      |snap.guard i d * (snap.imb j d - snap.imb i d)| ≤ 2 * snap.slack i d := by
    intro i hi j hj
    obtain ⟨h₀, h₁⟩ := guard_bounds h hi hd
    rw [abs_mul, abs_of_nonneg h₀, mul_comm]
    exact mul_le_mul (abs_imb_sub_le h hj hi hd) h₁ h₀ (by norm_num)
  have hslack : ∀ i < snap.nInstruments, 0 ≤ 2 * snap.slack i d := fun i hi =>
    (abs_nonneg _).trans (hterm i hi i hi)
  calc |pairSum snap.nInstruments fun i j => snap.guard i d * (snap.imb j d - snap.imb i d)|
      ≤ ∑ j ∈ Finset.range snap.nInstruments, ∑ i ∈ Finset.range j,
          |snap.guard i d * (snap.imb j d - snap.imb i d)| :=
        (Finset.abs_sum_le_sum_abs _ _).trans
          (Finset.sum_le_sum fun j _ => Finset.abs_sum_le_sum_abs _ _)
    _ ≤ ∑ j ∈ Finset.range snap.nInstruments, ∑ i ∈ Finset.range snap.nInstruments,
          2 * snap.slack i d := by
        refine Finset.sum_le_sum fun j hj => ?_
        have hj' := Finset.mem_range.mp hj
        have hsub : Finset.range j ⊆ Finset.range snap.nInstruments :=
          Finset.range_subset_range.mpr hj'.le
        refine (Finset.sum_le_sum fun i hi => ?_).trans
          (Finset.sum_le_sum_of_subset_of_nonneg hsub fun i hi _ =>
            hslack i (Finset.mem_range.mp hi))
        exact hterm i ((Finset.mem_range.mp hi).trans hj') j hj'
    _ = 2 * snap.nInstruments * ∑ i ∈ Finset.range snap.nInstruments, snap.slack i d := by
        rw [Finset.sum_const, Finset.card_range, nsmul_eq_mul, ← Finset.mul_sum]
        ring

/-- Over the edges that the kernels list, in any order of the threads, the flows sum to
minus the squared number of instruments times the covariance of the levels, up to what
the guard against zero prices adds. -/
theorem abs_sum_flow_add_le (h : snap.Quoted) {edges : List (Nat × Nat)}
    (hedges : ListsAllPairs snap.nInstruments edges) (omega : Nat → ℝ) :
    |∑ e ∈ Finset.range edges.length, snap.kernelBuildFlowVector Real.log edges omega e +
        (snap.nInstruments : ℝ) ^ 2 * ∑ d ∈ Finset.range snap.depth, snap.covariance d| ≤
      ∑ d ∈ Finset.range snap.depth,
        2 * snap.nInstruments * ∑ i ∈ Finset.range snap.nInstruments, snap.slack i d := by
  have hsum : ∑ e ∈ Finset.range edges.length,
      snap.kernelBuildFlowVector Real.log edges omega e =
      pairSum snap.nInstruments fun i j => ∑ d ∈ Finset.range snap.depth,
        (snap.logMid j d - snap.logMid i d - snap.guard i d) *
          (snap.imb i d - snap.imb j d) := by
    rw [hedges.sum_edges]
    refine pairSum_congr fun i j hij hj => ?_
    unfold kernelBuildFlowVector
    rw [hedges.all.getElem?_idxOf hij hj]
    exact flow_eq h (hij.trans hj) hj
  have hsplit : ∀ d, pairSum snap.nInstruments (fun i j =>
        (snap.logMid j d - snap.logMid i d - snap.guard i d) * (snap.imb i d - snap.imb j d)) +
      (snap.nInstruments : ℝ) ^ 2 * snap.covariance d =
      pairSum snap.nInstruments fun i j => snap.guard i d * (snap.imb j d - snap.imb i d) := by
    intro d
    rw [sq_mul_covariance, ← pairSum_add]
    exact pairSum_congr fun i j _ _ => by ring
  rw [hsum, pairSum_sum, Finset.mul_sum, ← Finset.sum_add_distrib]
  simp only [hsplit]
  exact (Finset.abs_sum_le_sum_abs _ _).trans
    (Finset.sum_le_sum fun d hd => abs_pairSum_guard_le h (Finset.mem_range.mp hd))

/-- Over the reals, the flow of an edge is the same in both directions up to what the guard
adds, and over the complete graph the flows sum to a covariance. -/
theorem flowVector_covariance (h : snap.Quoted) {laplacian : SparseLaplacian}
    {edgeSlots : List (Nat × Nat)} {slots : List Triangle}
    (hlaunch : CompleteLaunch snap.nInstruments laplacian edgeSlots slots) (omega : Nat → ℝ) :
    (∀ i < snap.nInstruments, ∀ j < snap.nInstruments,
      |snap.flow Real.log i j - snap.flow Real.log j i| ≤
        ∑ d ∈ Finset.range snap.depth, 2 * (snap.slack i d + snap.slack j d)) ∧
    |∑ e ∈ Finset.range edgeSlots.length,
          snap.kernelBuildFlowVector Real.log edgeSlots omega e +
        (snap.nInstruments : ℝ) ^ 2 * ∑ d ∈ Finset.range snap.depth, snap.covariance d| ≤
      ∑ d ∈ Finset.range snap.depth,
        2 * snap.nInstruments * ∑ i ∈ Finset.range snap.nInstruments, snap.slack i d :=
  ⟨fun _ hi _ hj => abs_flow_sub_le h hi hj, abs_sum_flow_add_le h hlaunch.listsAllPairs omega⟩

/-- Three instruments at one level. -/
def threeBooks : GpuLobSnapshot ℝ where
  nInstruments := 3
  depth := 1
  bidPrices := fun i => i + 1
  askPrices := fun i => i + (2 : Nat)
  bidQtys := fun i => i
  askQtys := fun _ => 1

theorem quoted_threeBooks : threeBooks.Quoted where
  mid i _ d _ := by
    show (0 : ℝ) < (((i * 1 + d : Nat) : ℝ) + 1 + (((i * 1 + d : Nat) : ℝ) + (2 : Nat))) * _
    positivity
  bid _ _ _ _ := Nat.cast_nonneg _
  ask _ _ _ _ := zero_le_one

theorem flowVector_covariance_three :
    |threeBooks.flow Real.log 0 1 - threeBooks.flow Real.log 1 0| ≤
      ∑ d ∈ Finset.range 1, 2 * (threeBooks.slack 0 d + threeBooks.slack 1 d) :=
  (flowVector_covariance quoted_threeBooks completeLaunch_three fun _ => 0).1 0 (by decide) 1
    (by decide)

end GpuLobSnapshot
end HoloMarket
