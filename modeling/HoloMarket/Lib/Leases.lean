import Mathlib.Data.Finset.Disjoint
import Mathlib.Data.Finset.SDiff
import Mathlib.Data.List.Basic

/-!
# Resources leased to holders

A set of resources in use beside the list of what each holder has.  A holder
that ends keeps its place in the list and has nothing.  The set stays the
disjoint union of the leases when a holder joins with resources that are free
and when a holder gives up its own.
-/

namespace HoloMarket

variable {α : Type*}

/-- `held` is the disjoint union of `leases`. -/
structure Leased (held : Finset α) (leases : List (Finset α)) : Prop where
  mem : ∀ a, a ∈ held ↔ ∃ S ∈ leases, a ∈ S
  apart : ∀ (i j : Nat) (S T : Finset α), leases[i]? = some S → leases[j]? = some T → i ≠ j →
    Disjoint S T

namespace Leased

variable {held : Finset α} {leases : List (Finset α)}

theorem nil : Leased (∅ : Finset α) [] where
  mem a := by simp
  apart i j S T hS := by simp at hS

theorem subset (h : Leased held leases) {S : Finset α} (hS : S ∈ leases) : S ⊆ held :=
  fun a ha => (h.mem a).mpr ⟨S, hS, ha⟩

variable [DecidableEq α]

theorem concat (h : Leased held leases) {S : Finset α} (hS : Disjoint held S) :
    Leased (held ∪ S) (leases ++ [S]) := by
  have hold : ∀ (i : Nat) (T : Finset α), leases[i]? = some T → Disjoint T S :=
    fun i T hT => hS.mono_left (h.subset (List.mem_of_getElem? hT))
  refine ⟨fun a => ?_, fun i j T U hT hU hij => ?_⟩
  · rw [Finset.mem_union, h.mem a]
    simp [or_and_right, exists_or]
  · rw [List.getElem?_append] at hT hU
    split_ifs at hT hU with hi hj hj
    · exact h.apart i j T U hT hU hij
    · rw [List.getElem?_singleton] at hU
      split_ifs at hU
      cases hU
      exact hold i T hT
    · rw [List.getElem?_singleton] at hT
      split_ifs at hT
      cases hT
      exact (hold j U hU).symm
    · rw [List.getElem?_singleton] at hT hU
      split_ifs at hT hU
      omega

/-- A holder gives up what it has, and the others keep theirs. -/
theorem set_empty (h : Leased held leases) {i : Nat} {S : Finset α}
    (hi : leases[i]? = some S) : Leased (held \ S) (leases.set i ∅) := by
  have hget : ∀ (j : Nat) (T : Finset α), (leases.set i ∅)[j]? = some T →
      j = i ∧ T = ∅ ∨ j ≠ i ∧ leases[j]? = some T := by
    intro j T hT
    rw [List.getElem?_set] at hT
    split_ifs at hT with hij hlt
    · exact Or.inl ⟨hij.symm, (Option.some.inj hT).symm⟩
    · exact Or.inr ⟨Ne.symm hij, hT⟩
  refine ⟨fun a => ?_, fun j k T U hT hU hjk => ?_⟩
  · rw [Finset.mem_sdiff, h.mem a]
    constructor
    · rintro ⟨⟨T, hT, ha⟩, hnot⟩
      obtain ⟨j, hj⟩ := List.getElem?_of_mem hT
      have hij : i ≠ j := by
        rintro rfl
        rw [hi] at hj
        cases hj
        exact hnot ha
      refine ⟨T, List.mem_of_getElem? (i := j) ?_, ha⟩
      rw [List.getElem?_set_ne hij]
      exact hj
    · rintro ⟨T, hT, ha⟩
      obtain ⟨j, hj⟩ := List.getElem?_of_mem hT
      rcases hget j T hj with ⟨-, rfl⟩ | ⟨hne, hj⟩
      · exact absurd ha (Finset.notMem_empty a)
      · exact ⟨⟨T, List.mem_of_getElem? hj, ha⟩,
          Finset.disjoint_left.mp (h.apart j i T S hj hi hne) ha⟩
  · rcases hget j T hT with ⟨-, rfl⟩ | ⟨-, hT⟩
    · exact Finset.disjoint_empty_left U
    · rcases hget k U hU with ⟨-, rfl⟩ | ⟨-, hU⟩
      · exact Finset.disjoint_empty_right T
      · exact h.apart j k T U hT hU hjk

end Leased
end HoloMarket
