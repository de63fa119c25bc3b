import Mathlib.Algebra.BigOperators.Ring.Finset
import Mathlib.Data.Matrix.Mul

/-!
# SparseMatrix: matrices by coordinates

A matrix given by a list of entries, where entries of one cell add up, and lists of
entries that are built row by row.
-/

namespace HoloMarket
namespace SparseMatrix

variable {α K : Type*}

structure Entry (K : Type*) where
  row : Int
  col : Int
  value : K

def Entry.InShape (m n : Nat) (e : Entry K) : Prop :=
  (0 ≤ e.row ∧ e.row < m) ∧ 0 ≤ e.col ∧ e.col < n

instance (m n : Nat) (e : Entry K) : Decidable (e.InShape m n) :=
  inferInstanceAs (Decidable ((_ ∧ _) ∧ _ ∧ _))

/-- The value of a row against a function of the columns. -/
def rowSum [AddMonoid K] (es : List (Entry K)) (i : Int) (f : Entry K → K) : K :=
  (es.map fun e => if e.row = i then f e else 0).sum

def cell [AddMonoid K] (es : List (Entry K)) (i j : Int) : K :=
  rowSum es i fun e => if e.col = j then e.value else 0

def dense [AddMonoid K] (m n : Nat) (es : List (Entry K)) : Matrix (Fin m) (Fin n) K :=
  fun i j => cell es (i.val : Int) (j.val : Int)

/-- A row of a product reads the other factor at the columns of the entries. -/
theorem dense_mul_apply [Semiring K] {m n p : Nat} {es : List (Entry K)}
    (hes : ∀ e ∈ es, e.InShape m n) {B : Matrix (Fin n) (Fin p) K} {k : Fin p} {g : Int → K}
    (hg : ∀ j : Fin n, B j k = g j.val) (i : Fin m) :
    (dense m n es * B) i k = rowSum es i.val fun e => e.value * g e.col := by
  rw [Matrix.mul_apply]
  induction es with
  | nil =>
    refine Finset.sum_eq_zero fun j _ => ?_
    show (0 : K) * B j k = 0
    rw [zero_mul]
  | cons e es ih =>
    have hcons : ∀ j : Fin n, dense m n (e :: es) i j * B j k =
        (if e.row = i.val then (if e.col = j.val then e.value else 0) else 0) * B j k +
          dense m n es i j * B j k := by
      intro j
      rw [← add_mul]
      rfl
    rw [Finset.sum_congr rfl fun j _ => hcons j, Finset.sum_add_distrib,
      ih fun x hx => hes x (List.mem_cons_of_mem _ hx)]
    show _ = (if e.row = i.val then e.value * g e.col else 0) + rowSum es i.val _
    congr 1
    by_cases hrow : e.row = i.val
    · obtain ⟨-, hlo, hhi⟩ := hes e List.mem_cons_self
      have hcol : (e.col.toNat : Int) = e.col := Int.toNat_of_nonneg hlo
      have hlt : e.col.toNat < n := by omega
      rw [if_pos hrow, Finset.sum_eq_single (⟨e.col.toNat, hlt⟩ : Fin n)]
      · rw [if_pos hrow, if_pos hcol.symm, hg, hcol]
      · intro j _ hj
        rw [if_pos hrow, if_neg, zero_mul]
        intro hjcol
        refine hj (Fin.ext ?_)
        show j.val = e.col.toNat
        omega
      · intro hnot
        exact absurd (Finset.mem_univ _) hnot
    · rw [if_neg hrow]
      refine Finset.sum_eq_zero fun j _ => ?_
      rw [if_neg hrow, zero_mul]

/-! ## Entries row by row -/

/-- The entries of the rows `s`, `s + 1` and so on. -/
def rowsFrom (row : Nat → α → List (Entry K)) : Nat → List α → List (Entry K)
  | _, [] => []
  | s, x :: xs => row s x ++ rowsFrom row (s + 1) xs

section Rows

variable {row : Nat → α → List (Entry K)}

theorem mem_rowsFrom {s : Nat} {xs : List α} {e : Entry K} :
    e ∈ rowsFrom row s xs ↔ ∃ i x, xs[i]? = some x ∧ e ∈ row (s + i) x := by
  induction xs generalizing s with
  | nil => simp [rowsFrom]
  | cons x xs ih =>
    rw [rowsFrom, List.mem_append, ih]
    constructor
    · rintro (he | ⟨i, y, hy, he⟩)
      · exact ⟨0, x, rfl, he⟩
      · refine ⟨i + 1, y, hy, ?_⟩
        rwa [← Nat.add_assoc, Nat.add_right_comm]
    · rintro ⟨i, y, hy, he⟩
      cases i with
      | zero =>
        obtain rfl : x = y := Option.some.inj hy
        exact Or.inl he
      | succ i =>
        refine Or.inr ⟨i, y, hy, ?_⟩
        rwa [Nat.add_right_comm, Nat.add_assoc]

variable [AddMonoid K]

theorem rowSum_append (es es' : List (Entry K)) (i : Int) (f : Entry K → K) :
    rowSum (es ++ es') i f = rowSum es i f + rowSum es' i f := by
  unfold rowSum
  rw [List.map_append, List.sum_append]

theorem rowSum_of_row {es : List (Entry K)} {i : Int} (h : ∀ e ∈ es, e.row = i)
    (f : Entry K → K) : rowSum es i f = (es.map f).sum := by
  unfold rowSum
  rw [List.map_congr_left fun e he => if_pos (h e he)]

theorem rowSum_of_other {es : List (Entry K)} {i : Int} (h : ∀ e ∈ es, e.row ≠ i)
    (f : Entry K → K) : rowSum es i f = 0 := by
  unfold rowSum
  rw [List.map_congr_left fun e he => if_neg (h e he)]
  simp

theorem rowSum_rowsFrom (hrow : ∀ i x, ∀ e ∈ row i x, e.row = i) {s i : Nat} {xs : List α}
    {x : α} (hx : xs[i]? = some x) (f : Entry K → K) :
    rowSum (rowsFrom row s xs) ((s + i : Nat) : Int) f = ((row (s + i) x).map f).sum := by
  induction xs generalizing s i with
  | nil => exact nomatch hx
  | cons y xs ih =>
    rw [rowsFrom, rowSum_append]
    cases i with
    | zero =>
      obtain rfl : y = x := Option.some.inj hx
      rw [Nat.add_zero]
      have hother : ∀ e ∈ rowsFrom row (s + 1) xs, e.row ≠ s := by
        intro e he
        obtain ⟨j, z, -, hz⟩ := mem_rowsFrom.mp he
        rw [hrow _ _ e hz]
        omega
      rw [rowSum_of_row (hrow s y), rowSum_of_other hother, add_zero]
    | succ i =>
      have hother : ∀ e ∈ row s y, e.row ≠ ((s + (i + 1) : Nat) : Int) := by
        intro e he
        rw [hrow _ _ e he]
        omega
      rw [rowSum_of_other hother, zero_add, show s + (i + 1) = s + 1 + i by omega]
      exact ih hx

end Rows

end SparseMatrix
end HoloMarket
