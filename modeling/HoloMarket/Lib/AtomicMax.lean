import Mathlib.Order.Lattice

/-!
# AtomicMax: a cell raised by compare and exchange

Any number of threads raise one cell, each to a value of its own, by the loop that loads
the cell and exchanges what it saw for the value as long as the value is larger.  An
access either leaves the cell or ends a loop by raising it, so the cell ends at the
largest of the values; and only the raises of others make a loop go round again.
-/

namespace HoloMarket
namespace AtomicMax

variable {α : Type*} [LinearOrder α]

/-- Where a loop stands: before its load, or before the exchange of the value it saw. -/
inductive Pc (α : Type*) where
  | load
  | exchange (prev : α)
deriving DecidableEq

/-- The test of the loop on the value it saw, with `none` when it ends there. -/
def test (v prev : α) : Option (Pc α) := if prev < v then some (.exchange prev) else none

/-- An access: the cell after it, and where the loop stands.  A weak exchange may fail
on the value it expects. -/
def access (v : α) (fails : Bool) (cell : α) : Pc α → α × Option (Pc α)
  | .load => (cell, test v cell)
  | .exchange prev => if cell = prev ∧ fails = false then (v, none) else (cell, test v cell)

/-- An exchange is only tried for a larger value. -/
def Ok (v : α) : Option (Pc α) → Prop
  | some (.exchange prev) => prev < v
  | _ => True

theorem ok_test (v cell : α) : Ok v (test v cell) := by
  unfold test
  split_ifs with hlt
  · exact hlt
  · trivial

theorem le_of_test {v cell : α} (h : test v cell = none) : v ≤ cell := by
  unfold test at h
  split_ifs at h with hlt
  exact le_of_not_gt hlt

/-- What an access can do: it looks at the cell again, or it raises it and ends. -/
theorem access_cases {v : α} {pc : Pc α} (hok : Ok v (some pc)) (fails : Bool) (cell : α) :
    access v fails cell pc = (cell, test v cell) ∨
      cell < v ∧ access v fails cell pc = (v, none) := by
  cases pc with
  | load => exact Or.inl rfl
  | exchange prev =>
    by_cases hsame : cell = prev ∧ fails = false
    · refine Or.inr ⟨?_, if_pos hsame⟩
      rw [hsame.1]
      exact hok
    · exact Or.inl (if_neg hsame)

section Access

variable {v : α} {pc : Pc α} (hok : Ok v (some pc)) (fails : Bool) (cell : α)
include hok

theorem ok_access : Ok v (access v fails cell pc).2 := by
  rcases access_cases hok fails cell with h | ⟨-, h⟩
  · rw [h]
    exact ok_test v cell
  · rw [h]
    trivial

theorem le_access : cell ≤ (access v fails cell pc).1 := by
  rcases access_cases hok fails cell with h | ⟨hlt, h⟩
  · rw [h]
  · rw [h]
    exact hlt.le

theorem access_mem : (access v fails cell pc).1 = cell ∨ (access v fails cell pc).1 = v := by
  rcases access_cases hok fails cell with h | ⟨-, h⟩
  · exact Or.inl (congrArg Prod.fst h)
  · exact Or.inr (congrArg Prod.fst h)

/-- A loop that ends leaves at least its value in the cell. -/
theorem le_of_access (hnone : (access v fails cell pc).2 = none) :
    v ≤ (access v fails cell pc).1 := by
  rcases access_cases hok fails cell with h | ⟨-, h⟩
  · rw [h] at hnone ⊢
    exact le_of_test hnone
  · rw [h]

end Access

/-! ## Progress -/

/-- The accesses that a loop still takes if nothing else raises the cell. -/
def cost (cell : α) : Option (Pc α) → Nat
  | none => 0
  | some .load => 3
  | some (.exchange prev) => if prev = cell then 1 else 2

theorem cost_exchange (cell prev : α) :
    cost cell (some (.exchange prev)) = if prev = cell then 1 else 2 := rfl

theorem cost_test_le (v cell : α) : cost cell (test v cell) ≤ 1 := by
  unfold test
  split_ifs with hlt
  · exact Nat.le_of_eq ((cost_exchange cell cell).trans (if_pos rfl))
  · exact Nat.zero_le 1

theorem one_le_cost (cell : α) (pc : Pc α) : 1 ≤ cost cell (some pc) := by
  cases pc with
  | load => exact Nat.le_add_left 1 2
  | exchange prev =>
    rw [cost_exchange]
    split_ifs <;> omega

/-- An access that leaves the cell brings the loop nearer to its end, if the exchange does
not fail without a reason. -/
theorem cost_access {v : α} {pc : Pc α} (hok : Ok v (some pc)) {fails : Bool} {cell : α}
    (hsame : (access v fails cell pc).1 = cell) :
    cost cell (access v fails cell pc).2 + (if fails then 0 else 1) ≤ cost cell (some pc) := by
  rcases access_cases hok fails cell with h | ⟨hlt, h⟩
  · have htest := cost_test_le v cell
    have hone := one_le_cost cell pc
    rw [h]
    show cost cell (test v cell) + _ ≤ _
    cases fails with
    | true => exact Nat.le_trans htest hone
    | false =>
      refine Nat.le_trans (Nat.add_le_add_right htest 1) ?_
      cases pc with
      | load => exact Nat.le_succ 2
      | exchange prev =>
        -- the value that was expected would have been exchanged
        have hprev : prev ≠ cell := by
          intro heq
          have hraise : access v false cell (.exchange prev) = (v, none) :=
            if_pos ⟨heq.symm, rfl⟩
          rw [hraise] at hsame
          exact ne_of_lt hok (heq.trans hsame.symm)
        exact Nat.le_of_eq ((cost_exchange cell prev).trans (if_neg hprev)).symm
  · rw [h] at hsame
    exact absurd hsame hlt.ne'

/-- A raise by another thread costs a loop one access more. -/
theorem cost_le_succ (cell cell' : α) (pc : Option (Pc α)) :
    cost cell' pc ≤ cost cell pc + 1 := by
  match pc with
  | none => exact Nat.zero_le _
  | some .load => exact Nat.le_succ 3
  | some (.exchange prev) =>
    rw [cost_exchange, cost_exchange]
    split_ifs <;> omega

end AtomicMax
end HoloMarket
