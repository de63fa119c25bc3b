import Mathlib.LinearAlgebra.Matrix.Rank

/-!
# RowSpace: row operations, and the rank they lead to

Exchanging rows and adding multiples of one row to the others keep the space that the
rows span.  A column at a time, they lead to a matrix whose first rows have a column
of their own each and whose other rows are zero, and there the rank can be counted.
-/

namespace HoloMarket
namespace RowSpace

variable {K : Type*} [Field K] {m n : Nat}

/-- The space that the rows span. -/
def rowSpace (A : Matrix (Fin m) (Fin n) K) : Submodule K (Fin n → K) :=
  Submodule.span K (Set.range A.row)

theorem finrank_rowSpace (A : Matrix (Fin m) (Fin n) K) :
    Module.finrank K (rowSpace A) = A.rank :=
  A.rank_eq_finrank_span_row.symm

/-! ## Row operations -/

def swapRows (p q : Fin m) (A : Matrix (Fin m) (Fin n) K) : Matrix (Fin m) (Fin n) K :=
  fun r => A (Equiv.swap p q r)

/-- The row `p` is taken from every other row as often as the row has it in the column `c`. -/
def clearColumn (p : Fin m) (c : Fin n) (A : Matrix (Fin m) (Fin n) K) :
    Matrix (Fin m) (Fin n) K :=
  fun r => if r = p then A p else A r - A r c • A p

theorem row_mem_rowSpace (A : Matrix (Fin m) (Fin n) K) (r : Fin m) : A r ∈ rowSpace A :=
  Submodule.subset_span ⟨r, rfl⟩

theorem rowSpace_swapRows (p q : Fin m) (A : Matrix (Fin m) (Fin n) K) :
    rowSpace (swapRows p q A) = rowSpace A :=
  congrArg (Submodule.span K) ((Equiv.swap p q).surjective.range_comp A.row)

theorem rowSpace_clearColumn (p : Fin m) (c : Fin n) (A : Matrix (Fin m) (Fin n) K) :
    rowSpace (clearColumn p c A) = rowSpace A := by
  have hp : clearColumn p c A p = A p := if_pos rfl
  have hother : ∀ r, r ≠ p → clearColumn p c A r = A r - A r c • A p := fun r hr => if_neg hr
  apply le_antisymm
  · refine Submodule.span_le.mpr ?_
    rintro _ ⟨r, rfl⟩
    show clearColumn p c A r ∈ rowSpace A
    by_cases hr : r = p
    · rw [hr, hp]
      exact row_mem_rowSpace A p
    · rw [hother r hr]
      exact Submodule.sub_mem _ (row_mem_rowSpace A r)
        (Submodule.smul_mem _ _ (row_mem_rowSpace A p))
  · refine Submodule.span_le.mpr ?_
    rintro _ ⟨r, rfl⟩
    show A r ∈ rowSpace (clearColumn p c A)
    have hpivot : A p ∈ rowSpace (clearColumn p c A) := by
      have hmem := row_mem_rowSpace (clearColumn p c A) p
      rwa [hp] at hmem
    by_cases hr : r = p
    · rw [hr]
      exact hpivot
    · have hmem := row_mem_rowSpace (clearColumn p c A) r
      rw [hother r hr] at hmem
      have hadd := Submodule.add_mem _ hmem (Submodule.smul_mem _ (A r c) hpivot)
      rwa [sub_add_cancel] at hadd

/-! ## Reduced columns -/

/-- Of the first `c` columns, each of the first `k` rows has one in which it is the
only row, and the other rows are zero there. -/
structure Reduced (A : Matrix (Fin m) (Fin n) K) (k c : Nat) : Prop where
  le : k ≤ m
  pivot : ∀ i : Fin m, i < k → ∃ j : Fin n, j < c ∧ ∀ r, A r j = if r = i then 1 else 0
  rest : ∀ r : Fin m, k ≤ r → ∀ j : Fin n, j < c → A r j = 0

theorem reduced_start (A : Matrix (Fin m) (Fin n) K) : Reduced A 0 0 where
  le := Nat.zero_le m
  pivot := fun _ h => absurd h (Nat.not_lt_zero _)
  rest := fun _ _ _ h => absurd h (Nat.not_lt_zero _)

/-- A column in which the other rows are zero is passed over. -/
theorem Reduced.skip {A : Matrix (Fin m) (Fin n) K} {k : Nat} {c : Fin n} (h : Reduced A k c)
    (hzero : ∀ r : Fin m, k ≤ r → A r c = 0) : Reduced A k (c + 1) where
  le := h.le
  pivot := by
    intro i hi
    obtain ⟨j, hj, hcol⟩ := h.pivot i hi
    exact ⟨j, Nat.lt_succ_of_lt hj, hcol⟩
  rest := by
    intro r hr j hj
    rcases Nat.lt_succ_iff_lt_or_eq.mp hj with hlt | heq
    · exact h.rest r hr j hlt
    · rw [Fin.ext heq]
      exact hzero r hr

/-- Exchanging two of the other rows changes nothing in the columns passed. -/
theorem Reduced.swapRows {A : Matrix (Fin m) (Fin n) K} {k c : Nat} {p q : Fin m}
    (h : Reduced A k c) (hp : k ≤ p) (hq : k ≤ q) (r : Fin m) {j : Fin n} (hj : j < c) :
    swapRows p q A r j = A r j := by
  show A (Equiv.swap p q r) j = A r j
  by_cases hrp : r = p
  · rw [hrp, Equiv.swap_apply_left, h.rest q hq j hj, h.rest p hp j hj]
  · by_cases hrq : r = q
    · rw [hrq, Equiv.swap_apply_right, h.rest q hq j hj, h.rest p hp j hj]
    · rw [Equiv.swap_apply_of_ne_of_ne hrp hrq]

theorem clearColumn_of_zero {A : Matrix (Fin m) (Fin n) K} {p : Fin m} {j : Fin n}
    (hp : A p j = 0) (c : Fin n) (r : Fin m) : clearColumn p c A r j = A r j := by
  unfold clearColumn
  by_cases hr : r = p
  · rw [if_pos hr, hr]
  · rw [if_neg hr, Pi.sub_apply, Pi.smul_apply, hp, smul_zero, sub_zero]

theorem clearColumn_self {A : Matrix (Fin m) (Fin n) K} {p : Fin m} {c : Fin n}
    (hp : A p c = 1) (r : Fin m) : clearColumn p c A r c = if r = p then 1 else 0 := by
  unfold clearColumn
  by_cases hr : r = p
  · rw [if_pos hr, if_pos hr, hp]
  · rw [if_neg hr, if_neg hr, Pi.sub_apply, Pi.smul_apply, hp, smul_eq_mul, mul_one, sub_self]

/-- A row with a one in the column is brought to the place `p` and taken from the others. -/
theorem Reduced.pivoted {A : Matrix (Fin m) (Fin n) K} {c : Fin n} {p q : Fin m}
    (h : Reduced A p c) (hq : p ≤ q) (hone : A q c = 1) :
    Reduced (clearColumn p c (RowSpace.swapRows p q A)) (p + 1) (c + 1) := by
  have hle : (p : Nat) ≤ q := hq
  have hpc : RowSpace.swapRows p q A p c = 1 := by
    show A (Equiv.swap p q p) c = 1
    rw [Equiv.swap_apply_left, hone]
  have hpassed : ∀ r, ∀ j : Fin n, j < c →
      clearColumn p c (RowSpace.swapRows p q A) r j = A r j := by
    intro r j hj
    have hzero : RowSpace.swapRows p q A p j = 0 := by
      rw [h.swapRows (Nat.le_refl _) hle p hj, h.rest p (Nat.le_refl _) j hj]
    rw [clearColumn_of_zero hzero, h.swapRows (Nat.le_refl _) hle r hj]
  constructor
  · exact p.isLt
  · intro i hi
    rcases Nat.lt_succ_iff_lt_or_eq.mp hi with hlt | heq
    · obtain ⟨j, hj, hcol⟩ := h.pivot i hlt
      exact ⟨j, Nat.lt_succ_of_lt hj, fun r => (hpassed r j hj).trans (hcol r)⟩
    · rw [Fin.ext heq]
      exact ⟨c, Nat.lt_succ_self c, clearColumn_self hpc⟩
  · intro r hr j hj
    rcases Nat.lt_succ_iff_lt_or_eq.mp hj with hlt | heq
    · rw [hpassed r j hlt]
      exact h.rest r (Nat.le_of_succ_le hr) j hlt
    · rw [Fin.ext heq, clearColumn_self hpc, if_neg]
      rintro rfl
      exact absurd hr (Nat.not_succ_le_self _)

/-! ## The rank -/

theorem Reduced.le_rank {A : Matrix (Fin m) (Fin n) K} {k c : Nat} (h : Reduced A k c) :
    k ≤ A.rank := by
  choose column _ hcolumn using h.pivot
  let place : Fin k → Fin m := Fin.castLE h.le
  have hone : A.submatrix place (fun i => column (place i) i.isLt) = 1 := by
    ext i j
    rw [Matrix.submatrix_apply, hcolumn, Matrix.one_apply]
    exact if_congr (Fin.castLE_injective h.le).eq_iff rfl rfl
  have hrank := A.rank_submatrix_le place fun i => column (place i) i.isLt
  rwa [hone, Matrix.rank_one, Fintype.card_fin] at hrank

/-- When no row or no column is left, the rows brought into place are the rank. -/
theorem Reduced.rank_eq {A : Matrix (Fin m) (Fin n) K} {k c : Nat} (h : Reduced A k c)
    (hdone : m ≤ k ∨ n ≤ c) : A.rank = k := by
  refine Nat.le_antisymm ?_ h.le_rank
  have hzero : ∀ r : Fin m, k ≤ r → A.row r = 0 := by
    intro r hr
    rcases hdone with hrows | hcols
    · exact absurd (hrows.trans hr) (Nat.not_le.mpr r.isLt)
    · ext j
      exact h.rest r hr j (Nat.lt_of_lt_of_le j.isLt hcols)
  have hsupport : Function.support A.row ⊆ (Finset.univ.filter fun r : Fin m => (r : Nat) < k) := by
    intro r hr
    rw [Finset.coe_filter_univ]
    exact Nat.lt_of_not_le fun hk => hr (hzero r hk)
  have hrank := A.rank_le_card_of_support_subset _ hsupport
  rwa [Fin.card_filter_val_lt, Nat.min_eq_right h.le] at hrank

end RowSpace
end HoloMarket
