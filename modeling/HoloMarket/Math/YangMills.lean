import Mathlib.Algebra.BigOperators.Field
import Mathlib.Algebra.Order.BigOperators.Ring.Finset
import Mathlib.Algebra.Order.Field.Basic
import Mathlib.Tactic.Ring
import HoloMarket.Lib.BlockReduce
import HoloMarket.Lib.RowMajor
import HoloMarket.Math.HarmonicProjection

/-!
# The Yang-Mills action

`kernel_yang_mills_action` of `hodge_kernel.cu`: every block reduces its edges in
shared memory, and its first thread adds a quarter of the result to the action.
The threads of all blocks interleave access by access.
-/

namespace HoloMarket

open BlockReduce

def kHodgeBlockDim : Nat := 256

/-- The blocks of a launch over the edges. -/
def gridDim (nEdges : Nat) : Nat := (nEdges + kHodgeBlockDim - 1) / kHodgeBlockDim

variable {K : Type*} [Field K]

/-- `local_sum` of thread `t` of block `b`. -/
def ymLocalSum (gamma coexact : Nat → K) (nEdges b t : Nat) : K :=
  let e := b * kHodgeBlockDim + t
  if e < nEdges then
    let aMu := gamma e
    let aNu := coexact e
    let dA := aMu - aNu
    let comm := aMu * aNu - aNu * aMu
    let fMunu := dA + comm
    fMunu * fMunu
  else 0

/-- What the first thread of a block adds. -/
def ymScale (coupling x : K) : K := x / (((4 : Nat) : K) * coupling * coupling)

/-- One access of one thread, or the opening of a barrier. -/
def ymStep (gamma coexact : Nat → K) (nEdges : Nat) (coupling : K) :
    Grid K → Event → Option (Grid K) :=
  BlockReduce.step kHodgeBlockDim (gridDim nEdges) (ymLocalSum gamma coexact nEdges)
    (ymScale coupling)

/-- The kernel has ended. -/
def YmReturned (nEdges : Nat) (s : Grid K) : Prop :=
  Returned kHodgeBlockDim (gridDim nEdges) s

theorem le_gridDim (nEdges : Nat) : nEdges ≤ gridDim nEdges * kHodgeBlockDim := by
  unfold gridDim kHodgeBlockDim
  omega

theorem ymLocalSum_eq (gamma coexact : Nat → K) (nEdges b t : Nat) :
    ymLocalSum gamma coexact nEdges b t =
      if b * kHodgeBlockDim + t < nEdges then
        (gamma (b * kHodgeBlockDim + t) - coexact (b * kHodgeBlockDim + t)) ^ 2
      else 0 := by
  unfold ymLocalSum
  dsimp only
  split_ifs
  · ring
  · rfl

theorem sum_ymLocalSum (gamma coexact : Nat → K) (nEdges : Nat) (coupling : K) :
    ∑ b ∈ Finset.range (gridDim nEdges),
        ymScale coupling (∑ t ∈ Finset.range kHodgeBlockDim, ymLocalSum gamma coexact nEdges b t) =
      (∑ e ∈ Finset.range nEdges, (gamma e - coexact e) ^ 2) /
        (((4 : Nat) : K) * coupling * coupling) := by
  unfold ymScale
  simp only [ymLocalSum_eq]
  rw [← Finset.sum_div, ← RowMajor.sum_range_mul _ _ fun e =>
    if e < nEdges then (gamma e - coexact e) ^ 2 else 0]
  congr 1
  rw [← Finset.sum_filter]
  refine Finset.sum_congr ?_ fun _ _ => rfl
  ext e
  have hle := le_gridDim nEdges
  rw [Finset.mem_filter, Finset.mem_range, Finset.mem_range]
  omega

section
variable {nEdges : Nat} {gamma coexact : Nat → K} {coupling : K} {smem : Nat → Nat → K}
variable {es : List Event} {s : Grid K}

theorem ymTotal_eq
    (hrun : Machine.run (ymStep gamma coexact nEdges coupling) (init smem) es = some s)
    (hret : YmReturned nEdges s) :
    s.total = (∑ e ∈ Finset.range nEdges, (gamma e - coexact e) ^ 2) /
      (((4 : Nat) : K) * coupling * coupling) := by
  rw [(run_total (k := 8) (show kHodgeBlockDim = 2 ^ 8 from rfl) hrun).2.2 hret]
  exact sum_ymLocalSum gamma coexact nEdges coupling

/-- In every interleaving of the threads the steps are bounded, no barrier holds the
kernel up, and when it ends the action is the squared distance of the harmonic from
the co-exact part over four times the square of the coupling. -/
theorem yangMills_run
    (hrun : Machine.run (ymStep gamma coexact nEdges coupling) (init smem) es = some s) :
    es.length ≤ gridDim nEdges * (kHodgeBlockDim * 36) ∧
      (¬ YmReturned nEdges s →
        ∃ e, (ymStep gamma coexact nEdges coupling s e).isSome = true) ∧
      (YmReturned nEdges s → s.total =
        (∑ e ∈ Finset.range nEdges, (gamma e - coexact e) ^ 2) /
          (((4 : Nat) : K) * coupling * coupling)) := by
  obtain ⟨hlen, hprogress, -⟩ :=
    run_total (k := 8) (show kHodgeBlockDim = 2 ^ 8 from rfl) hrun
  exact ⟨hlen, hprogress, ymTotal_eq hrun⟩

end

/-- Three edges with the flow 1, 2, 3 and no harmonic part: a run to the end exists, and
the action it leaves is 14 / 4. -/
theorem yangMills_run_three :
    ∃ es s, Machine.run (ymStep (fun _ => (0 : ℚ)) (fun e => (e : ℚ) + 1) 3 1)
        (init fun _ _ => 0) es = some s ∧ YmReturned 3 s ∧ s.total = 14 / 4 := by
  obtain ⟨es, s, hrun, hret⟩ := (gridInv_init kHodgeBlockDim (gridDim 3)
    (ymLocalSum (fun _ => (0 : ℚ)) (fun e => (e : ℚ) + 1) 3) (ymScale 1)
    fun _ _ => 0).exists_returned (k := 8) rfl
  refine ⟨es, s, hrun, hret, ?_⟩
  rw [(yangMills_run hrun).2.2 hret]
  decide +kernel

end HoloMarket
