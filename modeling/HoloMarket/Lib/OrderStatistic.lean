import Mathlib.Data.List.Sort

/-!
# OrderStatistic: elements of a sorted list, and counts of classes

The element at an index of the sorted list lies below a bound exactly when more elements
than the index do.  A histogram, which only counts the elements of each class, therefore
knows the class of every order statistic: it is where the running count passes the index.
-/

namespace HoloMarket
namespace OrderStatistic

variable {α : Type*}

/-! ## Counts in a sorted list -/

section Sorted

variable {f : α → Nat} {s : List α} {i : Nat} {x : α}

theorem countP_lt_eq_zero {a c : Nat} (h : ∀ y ∈ s, a ≤ f y) (hc : c ≤ a) :
    s.countP (fun y => decide (f y < c)) = 0 := by
  rw [List.countP_eq_zero]
  intro y hy hlt
  have hle := h y hy
  have hyc : f y < c := of_decide_eq_true hlt
  omega

theorem lt_countP_iff (hs : s.Pairwise fun x y => f x ≤ f y) (hx : s[i]? = some x) (c : Nat) :
    i < s.countP (fun y => decide (f y < c)) ↔ f x < c := by
  induction s generalizing i with
  | nil => cases hx
  | cons a s ih =>
    obtain ⟨hhead, htail⟩ := List.pairwise_cons.mp hs
    by_cases ha : f a < c
    · rw [List.countP_cons, if_pos (decide_eq_true ha)]
      cases i with
      | zero =>
        obtain rfl : a = x := Option.some.inj hx
        exact iff_of_true (Nat.zero_lt_succ _) ha
      | succ i =>
        rw [Nat.succ_lt_succ_iff]
        exact ih htail hx
    · -- nothing behind a head past the bound is below it
      rw [List.countP_cons, countP_lt_eq_zero hhead (Nat.le_of_not_lt ha),
        if_neg (by simpa using ha)]
      have hax : f a ≤ f x := by
        rcases List.mem_cons.mp (List.mem_of_getElem? hx) with rfl | hmem
        · exact Nat.le_refl _
        · exact hhead x hmem
      exact iff_of_false (Nat.not_lt_zero i) (by omega)

theorem countP_lt_succ (f : α → Nat) (l : List α) (b : Nat) :
    l.countP (fun y => decide (f y < b + 1)) =
      l.countP (fun y => decide (f y < b)) + l.countP (fun y => decide (f y = b)) := by
  induction l with
  | nil => rfl
  | cons a l ih =>
    simp only [List.countP_cons, decide_eq_true_eq, ih]
    split_ifs <;> omega

end Sorted

/-! ## The walk over a histogram -/

/-- The first class at which the running count exceeds `target`. -/
def firstOver (cells : Nat → Nat) (target : Nat) : Nat → List Nat → Option Nat
  | _, [] => none
  | cum, b :: bs =>
    let cum := cum + cells b
    if target < cum then some b else firstOver cells target cum bs

section Walk

variable {f : α → Nat} {l : List α} {cells : Nat → Nat}

/-- The cells count the classes of the elements. -/
def Counts (f : α → Nat) (l : List α) (cells : Nat → Nat) : Prop :=
  ∀ b, cells b = l.countP fun y => decide (f y = b)

theorem firstOver_range' (hcells : Counts f l cells) {s : List α} (hperm : s.Perm l)
    (hs : s.Pairwise fun x y => f x ≤ f y) {i : Nat} {x : α} (hx : s[i]? = some x) (len : Nat)
    {a : Nat} (hlo : a ≤ f x) (hhi : f x < a + len) :
    firstOver cells i (l.countP fun y => decide (f y < a)) (List.range' a len) = some (f x) := by
  induction len generalizing a with
  | zero => omega
  | succ len ih =>
    rw [List.range'_succ, firstOver, hcells a, ← countP_lt_succ, ← hperm.countP_eq]
    by_cases hlt : f x < a + 1
    · rw [if_pos ((lt_countP_iff hs hx _).mpr hlt)]
      exact congrArg some (by omega)
    · rw [if_neg (mt (lt_countP_iff hs hx _).mp hlt), hperm.countP_eq]
      exact ih (by omega) (by omega)

/-- The walk finds the class of the element at the index `i` of the sorted list. -/
theorem firstOver_range [LinearOrder α] (hf : Monotone f) (hcells : Counts f l cells) {i k : Nat}
    {x : α} (hx : (l.insertionSort (· ≤ ·))[i]? = some x) (hk : f x < k) :
    firstOver cells i 0 (List.range k) = some (f x) := by
  have hperm : (l.insertionSort (· ≤ ·)).Perm l := List.perm_insertionSort _ l
  have hs : (l.insertionSort (· ≤ ·)).Pairwise fun x y => f x ≤ f y :=
    (List.pairwise_insertionSort _ l).imp fun hxy => hf hxy
  have hstart : l.countP (fun y => decide (f y < 0)) = 0 :=
    countP_lt_eq_zero (fun _ _ => Nat.zero_le _) (Nat.le_refl 0)
  have hwalk := firstOver_range' hcells hperm hs hx k (Nat.zero_le (f x)) (by omega)
  rwa [hstart, ← List.range_eq_range'] at hwalk

end Walk

end OrderStatistic
end HoloMarket
