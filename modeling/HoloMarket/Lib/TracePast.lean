import Mathlib.Data.List.Basic

/-!
# What stands before each entry of a trace

A property of the entries of a trace that looks at their past is kept by a step that
appends entries, as soon as each of them fits what stands before it.
-/

namespace HoloMarket

variable {α : Type*} {P : List α → α → Prop} {tr : List α} {a b : α}

/-- Each entry of the trace fits what stands before it. -/
def EachAfter (P : List α → α → Prop) (tr : List α) : Prop :=
  ∀ before a after, tr = before ++ a :: after → P before a

namespace EachAfter

theorem nil : EachAfter P [] := by
  intro before a after h
  cases before <;> cases h

theorem concat (h : EachAfter P tr) (ha : P tr a) : EachAfter P (tr ++ [a]) := by
  intro before b after heq
  rcases List.eq_nil_or_concat after with rfl | ⟨rest, c, rfl⟩
  · obtain ⟨rfl, hb⟩ := List.append_inj' heq rfl
    cases hb
    exact ha
  · have hsplit : tr ++ [a] = (before ++ b :: rest) ++ [c] := by
      rw [heq]
      simp
    exact h before b rest (List.append_inj' hsplit rfl).1

theorem concat_two (h : EachAfter P tr) (ha : P tr a) (hb : P (tr ++ [a]) b) :
    EachAfter P (tr ++ [a, b]) := by
  have h' := (h.concat ha).concat hb
  rwa [List.append_assoc] at h'

end EachAfter
end HoloMarket
