import Mathlib.Algebra.Order.Group.Defs
import Mathlib.Algebra.Order.Ring.Defs
import Mathlib.Tactic.LinearCombination

/-!
# Increments of a running total

A list of cumulative totals is taken by increments, each only when it exceeds a
threshold.  Taken together they are the last total exactly when no increment but
zero falls below the threshold.  When each total comes with an average price, the
increments priced at the averages are the last total at the last average less
what the averages were revised by on the way.
-/

namespace HoloMarket
namespace Increments

theorem le_getLastD {α : Type*} [Preorder α] {prev : α} {l : List α}
    (h : (prev :: l).Pairwise (· ≤ ·)) : prev ≤ l.getLastD prev := by
  induction l generalizing prev with
  | nil => exact le_rfl
  | cons x l ih =>
    obtain ⟨hprev, hl⟩ := List.pairwise_cons.mp h
    rw [List.getLastD_cons]
    exact (hprev x List.mem_cons_self).trans (ih hl)

section
variable {K : Type*} [AddCommGroup K] [LinearOrder K] (eps : K)

/-- What `x` exceeds `prev` by, when that is more than the threshold. -/
def taken (prev x : K) : K := if eps < x - prev then x - prev else 0

/-- What is taken along a list of totals, after `prev`. -/
def kept : K → List K → K
  | _, [] => 0
  | prev, x :: l => taken eps prev x + kept x l

/-- Every increment is zero or more than the threshold. -/
def Clear : K → List K → Prop
  | _, [] => True
  | prev, x :: l => (x = prev ∨ eps < x - prev) ∧ Clear x l

instance decidableClear : ∀ (prev : K) (l : List K), Decidable (Clear eps prev l)
  | _, [] => isTrue trivial
  | _, x :: l =>
    have := decidableClear x l
    inferInstanceAs (Decidable (_ ∧ Clear eps x l))

variable {eps}

theorem taken_nonneg (heps : 0 ≤ eps) (prev x : K) : 0 ≤ taken eps prev x := by
  unfold taken
  split_ifs with h
  · exact heps.trans h.le
  · exact le_rfl

theorem taken_eq_iff {prev x : K} :
    taken eps prev x = x - prev ↔ x = prev ∨ eps < x - prev := by
  unfold taken
  split_ifs with h
  · exact iff_of_true rfl (Or.inr h)
  · constructor
    · exact fun h0 => Or.inl (sub_eq_zero.mp h0.symm)
    · intro h0
      rw [h0.resolve_right h, sub_self]

variable [IsOrderedAddMonoid K]

theorem taken_le {prev x : K} (h : prev ≤ x) : taken eps prev x ≤ x - prev := by
  unfold taken
  split_ifs
  · exact le_rfl
  · exact sub_nonneg.mpr h

end

section
variable {K : Type*} [AddCommGroup K] [LinearOrder K] [IsOrderedAddMonoid K] {eps : K}

theorem kept_le {prev : K} {l : List K} (h : (prev :: l).Pairwise (· ≤ ·)) :
    kept eps prev l ≤ l.getLastD prev - prev := by
  induction l generalizing prev with
  | nil => exact (sub_self prev).ge
  | cons x l ih =>
    obtain ⟨hprev, hl⟩ := List.pairwise_cons.mp h
    calc kept eps prev (x :: l) = taken eps prev x + kept eps x l := rfl
      _ ≤ (x - prev) + (l.getLastD x - x) :=
        add_le_add (taken_le (hprev x List.mem_cons_self)) (ih hl)
      _ = (x :: l).getLastD prev - prev := by
        rw [List.getLastD_cons, sub_add_sub_cancel']

theorem kept_eq_iff {prev : K} {l : List K} (h : (prev :: l).Pairwise (· ≤ ·)) :
    kept eps prev l = l.getLastD prev - prev ↔ Clear eps prev l := by
  induction l generalizing prev with
  | nil => exact iff_of_true (sub_self prev).symm trivial
  | cons x l ih =>
    obtain ⟨hprev, hl⟩ := List.pairwise_cons.mp h
    have hsplit : (x :: l).getLastD prev - prev = (x - prev) + (l.getLastD x - x) := by
      rw [List.getLastD_cons, sub_add_sub_cancel']
    rw [hsplit]
    refine (add_eq_add_iff_eq_and_eq (taken_le (hprev x List.mem_cons_self)) (kept_le hl)).trans ?_
    exact and_congr taken_eq_iff (ih hl)

/-- A total that stays within the threshold has no increment above it. -/
theorem small_cons {prev x : K} {l : List K} (h : (prev :: x :: l).Pairwise (· ≤ ·))
    (hsmall : (x :: l).getLastD prev - prev ≤ eps) :
    taken eps prev x = 0 ∧ l.getLastD x - x ≤ eps := by
  obtain ⟨hprev, hl⟩ := List.pairwise_cons.mp h
  rw [List.getLastD_cons] at hsmall
  constructor
  · exact if_neg (not_lt.mpr ((sub_le_sub_right (le_getLastD hl) prev).trans hsmall))
  · exact (sub_le_sub_left (hprev x List.mem_cons_self) _).trans hsmall

theorem kept_of_small {prev : K} {l : List K} (h : (prev :: l).Pairwise (· ≤ ·))
    (hsmall : l.getLastD prev - prev ≤ eps) : kept eps prev l = 0 := by
  induction l generalizing prev with
  | nil => rfl
  | cons x l ih =>
    obtain ⟨hx, hrest⟩ := small_cons h hsmall
    show taken eps prev x + kept eps x l = 0
    rw [hx, ih (List.pairwise_cons.mp h).2 hrest, add_zero]

theorem kept_concat_iff {l : List K} {x : K} (h : (0 :: (l ++ [x])).Pairwise (· ≤ ·)) :
    kept eps 0 (l ++ [x]) = kept eps 0 [x] ↔ x ≤ eps ∨ Clear eps 0 (l ++ [x]) := by
  have hlast : (l ++ [x]).getLastD 0 - 0 = x := by rw [List.getLastD_concat, sub_zero]
  have hone : kept eps 0 [x] = if eps < x then x else 0 := by
    show taken eps 0 x + 0 = _
    unfold taken
    rw [sub_zero, add_zero]
  rw [hone]
  by_cases hsmall : x ≤ eps
  · rw [if_neg (not_lt.mpr hsmall), kept_of_small h (hlast.trans_le hsmall)]
    exact iff_of_true rfl (Or.inl hsmall)
  · rw [if_pos (not_le.mp hsmall), ← kept_eq_iff h, hlast]
    exact ⟨Or.inr, fun hc => hc.resolve_left hsmall⟩

end

/-! ## Priced increments -/

section
variable {K : Type*} [CommRing K] [LinearOrder K] (eps : K)

/-- What is taken along a list of totals, each increment at the price that comes
with its total. -/
def keptCost : K → List (K × K) → K
  | _, [] => 0
  | prev, x :: l => taken eps prev x.1 * x.2 + keptCost x.1 l

/-- What the quantities already taken are revised by when the price changes. -/
def revision : K → K → List (K × K) → K
  | _, _, [] => 0
  | prev, price, x :: l => prev * (x.2 - price) + revision x.1 x.2 l

variable {eps}

/-- Without a lost increment the cost telescopes up to the revisions. -/
theorem keptCost_of_clear {prev : K} (price : K) {l : List (K × K)}
    (h : Clear eps prev (l.map Prod.fst)) :
    keptCost eps prev l + revision prev price l =
      (l.getLastD (prev, price)).1 * (l.getLastD (prev, price)).2 - prev * price := by
  induction l generalizing prev price with
  | nil => exact (add_zero 0).trans (sub_self _).symm
  | cons x l ih =>
    obtain ⟨hx, hl⟩ := h
    have hrest := ih x.2 hl
    rw [List.getLastD_cons]
    show taken eps prev x.1 * x.2 + keptCost eps x.1 l +
      (prev * (x.2 - price) + revision x.1 x.2 l) = _
    rw [taken_eq_iff.mpr hx]
    linear_combination hrest

theorem keptCost_of_small [IsOrderedAddMonoid K] {prev : K} {l : List (K × K)}
    (h : (prev :: l.map Prod.fst).Pairwise (· ≤ ·))
    (hsmall : (l.map Prod.fst).getLastD prev - prev ≤ eps) : keptCost eps prev l = 0 := by
  induction l generalizing prev with
  | nil => rfl
  | cons x l ih =>
    obtain ⟨hx, hrest⟩ := small_cons h hsmall
    show taken eps prev x.1 * x.2 + keptCost eps x.1 l = 0
    rw [hx, ih (List.pairwise_cons.mp h).2 hrest, zero_mul, add_zero]

variable (eps) in
/-- The priced totals one by one come to the last one alone. -/
theorem keptCost_concat_iff [IsOrderedAddMonoid K] (l : List (K × K)) (x : K × K)
    (h : (0 :: (l ++ [x]).map Prod.fst).Pairwise (· ≤ ·)) :
    (kept eps 0 ((l ++ [x]).map Prod.fst) = kept eps 0 [x.1] ∧
        keptCost eps 0 (l ++ [x]) = keptCost eps 0 [x]) ↔
      x.1 ≤ eps ∨ Clear eps 0 ((l ++ [x]).map Prod.fst) ∧ revision 0 0 (l ++ [x]) = 0 := by
  have hmap : (l ++ [x]).map Prod.fst = l.map Prod.fst ++ [x.1] := by
    rw [List.map_append, List.map_singleton]
  have hlast : ((l ++ [x]).map Prod.fst).getLastD 0 - 0 = x.1 := by
    rw [hmap, List.getLastD_concat, sub_zero]
  have hkept : kept eps 0 ((l ++ [x]).map Prod.fst) = kept eps 0 [x.1] ↔
      x.1 ≤ eps ∨ Clear eps 0 ((l ++ [x]).map Prod.fst) := by
    rw [hmap] at h ⊢
    exact kept_concat_iff h
  have hone : keptCost eps 0 [x] = (if eps < x.1 then x.1 else 0) * x.2 := by
    show taken eps 0 x.1 * x.2 + 0 = _
    unfold taken
    rw [sub_zero, add_zero]
  rw [hkept, hone]
  by_cases hsmall : x.1 ≤ eps
  · rw [if_neg (not_lt.mpr hsmall), keptCost_of_small h (hlast.trans_le hsmall), zero_mul]
    exact iff_of_true ⟨Or.inl hsmall, rfl⟩ (Or.inl hsmall)
  · rw [if_pos (not_le.mp hsmall), or_iff_right hsmall, or_iff_right hsmall]
    refine and_congr_right fun hclear => ?_
    have htele := keptCost_of_clear 0 hclear
    rw [List.getLastD_concat, zero_mul, sub_zero] at htele
    rw [← htele, left_eq_add]

end

end Increments
end HoloMarket
